import Chordboard.Proofs.Engine.NewPress

/-!
# No press is stranded

A press turns the chord timer on, and nothing turns it off but a chord, which takes every switch
that is pressed. Gaming modes press slots as well, but they mark them as sent in the same tick,
and they leave the chord timer alone. So between steps the chord timer is on while any slot is
pressed (`PressTimed`), whatever modes the engine has been through.

What is due then is a chord with the switch in it: it comes no later than the first tick at which
the timer has run out, if the mode has chords and no press puts it off again
(`exists_nextChord_of_due`).
-/

namespace Chordboard

variable {B n : Nat} {reg : Registry B}

/-! ## The chord timer -/

namespace Timer

/-- From this time on a timer that is on has run out. -/
def dueAt (t : Timer) : Nat :=
  match t.state with
  | .disabled => 0
  | .running start delay => start + delay
  | .expired => 0

theorem isDone_of_dueAt_le {t : Timer} {now : Nat} (on : t.isDisabled = false)
    (due : t.dueAt ≤ now) : t.isDone now = true := by
  unfold dueAt at due
  cases hstate : t.state with
  | disabled =>
      rw [isDisabled, hstate] at on
      cases on
  | running start delay =>
      rw [hstate] at due
      rw [isDone_of_running hstate]
      exact decide_eq_true (Nat.le_sub_of_add_le (Nat.add_comm start delay ▸ due))
  | expired =>
      rw [isDone, hstate]

end Timer

/-- Once the sample of a chorded mode is taken, the chord timer is on for every slot that is
pressed, if it was before. -/
theorem Tick.chordTimer_on_of_sampled_pressed {t : Tick B n} (calm : t.gaming reg = false)
    {i : Fin n}
    (before : t.before.switches.slots[i].status = .pressed →
      t.before.switches.grouping.chordTimer.isDisabled = false)
    (pressed : (t.sampled reg).slots[i].status = .pressed) :
    (t.sampled reg).grouping.chordTimer.isDisabled = false := by
  rw [sampled_chordTimer calm]
  apply Grouping.chordTimer_on_acceptAll
  rcases (sampled_pressed_iff calm).1 pressed with already | fresh
  · exact Or.inl (before already)
  · exact Or.inr ⟨(i, .press), mem_presses.1 fresh, nofun⟩

namespace Engine

open Tick

variable {e : Engine B n} {t : Tick B n}

/-! ## The invariant -/

/-- The chord timer is on for every slot that is pressed. A change that a gaming mode saw has
been reported, so nothing there will be pressed without being sent. -/
structure PressTimed (e : Engine B n) : Prop where
  asked : e.switches.gamingChanged = false
  timerOn : ∀ i : Fin n, e.switches.slots[i].status = .pressed →
    e.switches.grouping.chordTimer.isDisabled = false

theorem pressTimed_fresh (B n : Nat) (settings : Settings) :
    PressTimed (fresh B n settings) where
  asked := rfl
  timerOn := by
    intro i hi
    simp [fresh, Switches.new, Slot.new] at hi

theorem PressTimed.tick (h : PressTimed t.before) : PressTimed (t.after reg) where
  asked := gamingChanged_after h.asked
  timerOn := by
    intro i hi
    cases mode : t.gaming reg with
    | true =>
        -- What is pressed was so before, and the timer is not touched.
        obtain ⟨-, hbefore⟩ := (pressed_after_of_gaming mode h.asked i).1 hi
        rw [grouping_after_of_gaming mode]
        exact h.timerOn i hbefore
    | false =>
        -- No chord has taken the slot, and so none has taken the timer.
        obtain ⟨hnone, hsampled⟩ := (after_pressed_iff mode).1 hi
        rw [chordTimer_after mode, hnone]
        exact chordTimer_on_of_sampled_pressed mode (h.timerOn i) hsampled

theorem PressTimed.congr {e' : Engine B n} (h : PressTimed e)
    (switches : e'.switches = e.switches) : PressTimed e' := by
  constructor
  · rw [switches]
    exact h.asked
  · rw [switches]
    exact h.timerOn

theorem PressTimed.applySettings (h : PressTimed e) (settings : Settings) :
    PressTimed (e.applySettings settings) where
  asked := h.asked
  timerOn := by
    intro i hi
    rw [status_applySettings] at hi
    exact h.timerOn i hi

theorem pressTimed_step (h : PressTimed e) (i : Input n) : PressTimed (e.step reg i).1 := by
  cases i with
  | tick now down => exact PressTimed.tick (t := ⟨e, now, down⟩) h
  | control m => exact h.congr (frame_control m).1
  | apply settings => exact h.applySettings settings

theorem pressTimed_run (reg : Registry B) (settings : Settings) (inputs : List (Input n)) :
    PressTimed ((fresh B n settings).run reg inputs).1 :=
  run_invariant (p := PressTimed) (fun _ i h => pressTimed_step h i)
    (pressTimed_fresh B n settings) inputs

/-! ## The chord that is due -/

/-- A timer that is left to run out is taken by a chord. -/
theorem exists_nextChord_of_due {due : Nat} {inputs : List (Input n)}
    (runsOut : ∀ now, due ≤ now → e.switches.grouping.chordTimer.isDone now = true)
    (calm : ∀ t ∈ e.ticks reg inputs, t.gaming reg = false)
    (quiet : ∀ t ∈ e.ticks reg inputs, t.Quiet reg)
    (late : ∃ t ∈ e.ticks reg inputs, due ≤ t.now) :
    ∃ bits, nextChord? reg (e.ticks reg inputs) = some bits := by
  induction inputs generalizing e with
  | nil =>
      obtain ⟨t, ht, -⟩ := late
      cases ht
  | cons i rest ih =>
      cases i with
      | tick now down =>
          let first : Tick B n := ⟨e, now, down⟩
          have hticks : e.ticks reg (.tick now down :: rest) =
              first :: (first.after reg).ticks reg rest := rfl
          rw [hticks] at calm quiet late
          rw [hticks, nextChord?, List.findSome?_cons]
          have hcalm := calm first List.mem_cons_self
          have hsampled : (first.sampled reg).grouping.chordTimer =
              e.switches.grouping.chordTimer :=
            chordTimer_of_quiet hcalm (quiet first List.mem_cons_self)
          cases hchord : first.chord? reg with
          | some bits => exact ⟨bits, rfl⟩
          | none =>
              have hearly : ¬due ≤ now := by
                intro hdue
                have hdone := (chord?_eq_none_iff hcalm).1 hchord
                rw [hsampled, runsOut now hdue] at hdone
                cases hdone
              have hafter : (first.after reg).switches.grouping.chordTimer =
                  e.switches.grouping.chordTimer := by
                rw [chordTimer_after hcalm, hchord]
                exact hsampled
              obtain ⟨t, ht, hdue⟩ := late
              rcases List.mem_cons.1 ht with rfl | ht
              · exact absurd hdue hearly
              · exact ih (hafter.symm ▸ runsOut) (fun t ht => calm t (List.mem_cons_of_mem _ ht))
                  (fun t ht => quiet t (List.mem_cons_of_mem _ ht)) ⟨t, ht, hdue⟩
      | control m =>
          have hswitches : (e.step reg (.control m)).1.switches = e.switches := (frame_control m).1
          rw [← hswitches] at runsOut
          exact ih runsOut calm quiet late
      | apply settings => exact ih runsOut calm quiet late

/-- **No press is stranded.** In every state that an engine reaches, between any two steps, and
whatever modes it has been through: if a slot is pressed, the chord timer is on.

A chord with that switch is still due, then. Whatever comes next, if the engine stays in modes
with chords and accepts no press and no tap that would start the timer anew, the next chord is
assembled no later than at the first tick at which the timer has run out, and it has the
switch. -/
theorem chord_due_of_pressed {settings : Settings} {inputs : List (Input n)} {s : Fin n}
    (reached : ((fresh B n settings).run reg inputs).1 = e)
    (pressed : e.switches.slots[s].status = .pressed) :
    e.switches.grouping.chordTimer.isDisabled = false ∧
      (n ≤ 8 * B → ∀ later : List (Input n),
        (∀ t ∈ e.ticks reg later, t.gaming reg = false ∧ t.Quiet reg) →
        (∃ t ∈ e.ticks reg later, e.switches.grouping.chordTimer.dueAt ≤ t.now) →
        ∃ bits, nextChord? reg (e.ticks reg later) = some bits ∧ bits.has s = true) := by
  have htimed : PressTimed e := reached ▸ pressTimed_run reg settings inputs
  have hon := htimed.timerOn s pressed
  refine ⟨hon, ?_⟩
  intro hn later undisturbed late
  have hcalm := fun t ht => (undisturbed t ht).1
  have hquiet := fun t ht => (undisturbed t ht).2
  have hrunsOut : ∀ now, e.switches.grouping.chordTimer.dueAt ≤ now →
      e.switches.grouping.chordTimer.isDone now = true := fun _ => Timer.isDone_of_dueAt_le hon
  obtain ⟨bits, hnext⟩ := exists_nextChord_of_due hrunsOut hcalm hquiet late
  exact ⟨bits, hnext, has_nextChord hn hcalm pressed hnext⟩

/-- The engine that has gone to a gaming mode in `heldThroughGaming`. -/
def enteredGaming : Engine 1 2 :=
  ((fresh 1 2 .usual).run twoModes (heldThroughGaming.take 7)).1

/-- Switch 1 is pressed when the gaming mode is entered. Back in a chorded mode its chord comes
after all. -/
theorem chord_due_after_gaming :
    enteredGaming.isGaming twoModes = true ∧
      enteredGaming.switches.slots[(1 : Fin 2)].status = .pressed ∧
      enteredGaming.switches.grouping.chordTimer.isDisabled = false ∧
      ∃ bits, nextChord? twoModes (enteredGaming.ticks twoModes
          [.control (.setMode 0), .tick 360000 fun _ => true]) = some bits ∧
        bits.has 1 = true := by
  have hpressed : enteredGaming.switches.slots[(1 : Fin 2)].status = .pressed := by
    decide +kernel
  obtain ⟨hon, hdue⟩ := chord_due_of_pressed rfl hpressed
  refine ⟨by decide +kernel, hpressed, hon, hdue (by decide) _ ?_ ?_⟩
  · unfold Tick.Quiet
    decide +kernel
  · decide +kernel

end Engine

end Chordboard
