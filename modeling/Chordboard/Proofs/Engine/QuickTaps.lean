import Chordboard.Proofs.Engine.ChordDelivery

/-!
# Quick taps

A switch that is released before its chord was sent is to be sent at once: its tap makes the chord
timer run out, and the chord is assembled at the same tick. But the moves of a tick are taken in
the order of the switches, and a press starts the chord timer anew. So a press of a later switch
at the same tick puts the chord off for another chord delay, unless the tap of a still later
switch follows (`tap_sent_at_once_iff`).
-/

namespace Chordboard

variable {B n : Nat} {reg : Registry B}

namespace Tick

open Grouping

variable {t : Tick B n}

/-- Some switch is tapped, and no later switch is pressed at the tick. -/
def TapLast (reg : Registry B) (t : Tick B n) : Prop :=
  ∃ k, (k, .tap) ∈ t.moves reg ∧ ∀ p ∈ t.presses reg, p < k

theorem tapLast_iff : t.TapLast reg ↔ ∃ k, lastLoud? (t.moves reg) = some (k, .tap) := by
  rw [lastLoud?_tap_iff id (moves_sorted reg t)]
  simp only [TapLast, mem_presses, id_eq]

/-- A tick with a tap leaves the chord timer expired, or started by a press that came later. -/
theorem chordTimer_sampled_of_tap (calm : t.gaming reg = false) {i : Fin n}
    (tap : (i, .tap) ∈ t.moves reg) :
    (t.TapLast reg ∧ (t.sampled reg).grouping.chordTimer.state = .expired) ∨
      (¬t.TapLast reg ∧ (t.sampled reg).grouping.chordTimer =
        t.before.switches.grouping.chordTimer.start t.now) := by
  rw [tapLast_iff, sampled_chordTimer calm, chordTimer_acceptAll]
  cases hlast : lastLoud? (t.moves reg) with
  | none => cases lastLoud?_eq_none_iff.1 hlast _ tap
  | some last =>
      obtain ⟨j, move⟩ := last
      cases move with
      | tap => exact Or.inl ⟨⟨j, rfl⟩, rfl⟩
      | press => exact Or.inr ⟨nofun, rfl⟩
      | release => exact absurd rfl (mem_of_lastLoud? hlast).2

end Tick

namespace Engine

open Tick

variable {t : Tick B n}

/-- **When a quick tap is sent at once.** In a run without gaming modes, at any times and with any
changes of settings, let a tick accept the release of a switch that is still pressed. A chord with
that switch is assembled at the same tick exactly if no press follows the last tap of the tick, or
the chord delay is zero. Otherwise no chord is assembled, and the switch waits for the whole chord
delay once more. -/
theorem tap_sent_at_once_iff {settings : Settings} {inputs : List (Input n)} (hn : n ≤ 8 * B)
    (calm : ∀ t ∈ (fresh B n settings).ticks reg inputs, t.gaming reg = false)
    (ht : t ∈ (fresh B n settings).ticks reg inputs) {i : Fin n}
    (tap : (i, .tap) ∈ t.moves reg) :
    ((∃ bits, t.chord? reg = some bits ∧ bits.has i = true) ↔
        t.TapLast reg ∨ t.before.settings.chord = 0) ∧
      (¬(t.TapLast reg ∨ t.before.settings.chord = 0) →
        t.chord? reg = none ∧ (t.after reg).switches.slots[i].status = .pressed ∧
          (t.after reg).switches.grouping.chordTimer.state =
            .running t.now t.before.settings.chord) := by
  have hcalm := calm t ht
  have hchord : t.before.switches.grouping.chordTimer.delay = t.before.settings.chord :=
    (tuned_of_mem_ticks ht).chord
  have pressed : (t.sampled reg).slots[i].status = .pressed := by
    rw [moves_of_calm hcalm] at tap
    rw [sampled_of_calm hcalm]
    exact Switches.pressed_of_mem_transitions tap nofun
  have sent : (∃ bits, t.chord? reg = some bits ∧ bits.has i = true) ↔
      (t.sampled reg).grouping.chordTimer.isDone t.now = true := by
    constructor
    · rintro ⟨bits, hbits, -⟩
      exact (chord?_eq_some_iff.1 hbits).2.1
    · intro done
      have hbits := chord?_eq_some_iff.2 ⟨hcalm, done, rfl⟩
      exact ⟨_, hbits, (has_chord_iff hn hbits i).2 (Or.inl pressed)⟩
  rw [sent]
  rcases chordTimer_sampled_of_tap hcalm tap with ⟨hlast, expired⟩ | ⟨hlast, started⟩
  · have done : (t.sampled reg).grouping.chordTimer.isDone t.now = true := by
      rw [Timer.isDone, expired]
    exact ⟨⟨fun _ => Or.inl hlast, fun _ => done⟩, fun h => absurd (Or.inl hlast) h⟩
  · have done : (t.sampled reg).grouping.chordTimer.isDone t.now = true ↔
        t.before.settings.chord = 0 := by
      rw [started, Timer.isDone_start, hchord, Nat.sub_self, Nat.le_zero]
    rw [done]
    refine ⟨⟨Or.inr, fun h => h.resolve_left hlast⟩, fun h => ?_⟩
    have notDone : (t.sampled reg).grouping.chordTimer.isDone t.now = false :=
      Bool.eq_false_iff.2 fun h' => h (Or.inr (done.1 h'))
    have hnone := (chord?_eq_none_iff hcalm).2 notDone
    refine ⟨hnone, (after_pressed_iff hcalm).2 ⟨hnone, pressed⟩, ?_⟩
    rw [chordTimer_after hcalm, hnone, ← hchord]
    exact congrArg Timer.state started

/-- One switch is released as soon as it was pressed, and another takes its place. -/
def handedOver (first second : Fin 2) : List (Input 2) :=
  [.tick 0 (· == first), .tick 10000 (· == first), .tick 12000 (· == second),
    .tick 22000 (· == second)]

/-- The last tick of `handedOver`, which accepts the tap and the press. -/
def handedOverTick (first second : Fin 2) : Tick 1 2 :=
  ((fresh 1 2 .usual).ticks bareRegistry (handedOver first second)).get ⟨3, Nat.lt_succ_self 3⟩

/-- If the press is that of an earlier switch, the tap is sent at once, and the press with it. -/
theorem tap_sent_with_earlier_press :
    (handedOverTick 1 0).moves bareRegistry = [(0, .press), (1, .tap)] ∧
      ∃ bits, (handedOverTick 1 0).chord? bareRegistry = some bits ∧ bits.has 1 = true := by
  have calm : ∀ t ∈ (fresh 1 2 .usual).ticks bareRegistry (handedOver 1 0),
      t.gaming bareRegistry = false := by decide +kernel
  have hmoves : (handedOverTick 1 0).moves bareRegistry = [(0, .press), (1, .tap)] := by
    decide +kernel
  have tap : (1, .tap) ∈ (handedOverTick 1 0).moves bareRegistry := by
    rw [hmoves]
    decide
  have last : (handedOverTick 1 0).TapLast bareRegistry := ⟨1, tap, by decide +kernel⟩
  exact ⟨hmoves, (tap_sent_at_once_iff (by decide) calm (List.get_mem _ _) tap).1.2 (Or.inl last)⟩

/-- With the switches the other way round the tap is not sent. -/
theorem tap_put_off_by_later_press :
    start bareRegistry 2 .usual = .ok (fresh 1 2 .usual) ∧
      (∀ t ∈ (fresh 1 2 .usual).ticks bareRegistry (handedOver 0 1),
        t.gaming bareRegistry = false) ∧
      ¬∀ t ∈ (fresh 1 2 .usual).ticks bareRegistry (handedOver 0 1), ∀ i : Fin 2,
        (i, .tap) ∈ t.moves bareRegistry →
          ∃ bits, t.chord? bareRegistry = some bits ∧ bits.has i = true := by
  refine ⟨rfl, by decide +kernel, fun sent => ?_⟩
  have tap : (0, .tap) ∈ (handedOverTick 0 1).moves bareRegistry := by decide +kernel
  obtain ⟨bits, hbits, -⟩ := sent (handedOverTick 0 1) (List.get_mem _ _) 0 tap
  have hnone : (handedOverTick 0 1).chord? bareRegistry = none := by decide +kernel
  rw [hnone] at hbits
  cases hbits

end Engine

end Chordboard
