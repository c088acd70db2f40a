import Chordboard.Engine.Run
import Chordboard.Proofs.Engine.Outcomes
import Chordboard.Proofs.Switches.Debouncing

/-!
# The ticks of a run

A run is told by its ticks: each with the engine that it found, the time and
the sample. From these everything else of the tick can be read off: the moves
of the switches that it accepted, the chord that it assembled, and the command
that the chord gave.

`ticks_append` and `exists_inputs_of_ticks` cut a run at a tick, and
`ticks_invariant` is the induction over a run that also sees the ticks behind
it.
-/

namespace Chordboard

variable {B n : Nat}

/-- What the questions of a tick in a chorded mode leave of what the switches share: a timer that
has run out is taken, and a double tap has been seen to. -/
def Grouping.settle (now : Nat) (g : Grouping n) : Grouping n :=
  { g with
    chordTimer := (g.chordTimer.take now).2
    releaseTimer := (g.releaseTimer.take now).2
    heldTimer := (g.heldTimer.take now).2
    doubleTapped := false }

theorem Grouping.sameDelays_settle (now : Nat) (g : Grouping n) : (g.settle now).SameDelays g where
  chord := g.chordTimer.delay_take now
  release := g.releaseTimer.delay_take now
  held := g.heldTimer.delay_take now

/-- One tick of a run. -/
structure Tick (B n : Nat) where
  before : Engine B n
  now : Nat
  down : Fin n → Bool

namespace Tick

section views

variable (reg : Registry B) (t : Tick B n)

/-- The mode at the tick is a gaming mode. -/
def gaming : Bool := t.before.isGaming reg

def after : Engine B n := (t.before.tick reg t.now t.down).1

def reports : List Report := (t.before.tick reg t.now t.down).2

/-- The switches once the sample has been taken. -/
def sampled : Switches n := t.before.switches.update t.now (t.gaming reg) t.down

/-- The moves of switches that the sample made accepted. -/
def moves : List (Fin n × Transition) :=
  if t.gaming reg then [] else t.before.switches.transitions t.now t.down

/-- The switches whose press was accepted. -/
def presses : List (Fin n) :=
  (t.moves reg).filterMap fun m => if m.2 = .press then some m.1 else none

/-- The switches of the chord that is assembled, if one is. -/
def chord? : Option (Pattern B) :=
  if !t.gaming reg && ((t.sampled reg).pressDue t.now (t.gaming reg)).1 then
    some ((t.sampled reg).assemble B).1
  else none

/-- The order that the assembled chord gives. -/
def command? : Option Command :=
  match t.chord? reg with
  | none => none
  | some bits =>
      let c := Chord.ofBits t.before.mode bits
      if c.isEmpty then none else (reg.lookup .command c).bind Command.ofKeys?

/-- The engine that acts on the assembled chord. -/
def sending : Engine B n :=
  { t.before with switches := ((t.sampled reg).pressDue t.now (t.gaming reg)).2.markSent }

/-- The keys and modifiers of all switches that are down, each looked up on its own. -/
def gathered : List Key × UInt8 :=
  ((t.sampled reg).assembleSingles B t.before.mode).1.foldl (Engine.gather reg)
    ([], t.before.sticky)

end views

variable {reg : Registry B} {t : Tick B n}

/-! ## One tick -/

theorem mem_presses {i : Fin n} : i ∈ t.presses reg ↔ (i, .press) ∈ t.moves reg := by
  simp only [presses, List.mem_filterMap, Option.ite_none_right_eq_some, Option.some.injEq]
  constructor
  · rintro ⟨⟨j, m⟩, hmem, rfl, rfl⟩
    exact hmem
  · intro h
    exact ⟨(i, .press), h, rfl, rfl⟩

theorem moves_of_calm (calm : t.gaming reg = false) :
    t.moves reg = t.before.switches.transitions t.now t.down := by
  rw [moves, calm]
  rfl

theorem moves_sorted (reg : Registry B) (t : Tick B n) :
    (t.moves reg).Pairwise fun m m' => m.1 < m'.1 := by
  unfold moves
  split
  · exact List.Pairwise.nil
  · exact Switches.transitions_sorted ..

theorem sampled_of_calm (calm : t.gaming reg = false) :
    t.sampled reg = t.before.switches.updateChorded t.now t.down := by
  rw [sampled, calm]
  rfl

theorem pressDue_of_calm (calm : t.gaming reg = false) :
    ((t.sampled reg).pressDue t.now (t.gaming reg)).1 =
      (t.sampled reg).grouping.chordTimer.isDone t.now := by
  rw [calm]
  exact Timer.take_fst ..

theorem chord?_eq_some_iff {bits : Pattern B} :
    t.chord? reg = some bits ↔
      t.gaming reg = false ∧ (t.sampled reg).grouping.chordTimer.isDone t.now = true ∧
        ((t.sampled reg).assemble B).1 = bits := by
  unfold chord?
  cases calm : t.gaming reg with
  | true => simp
  | false =>
      rw [← calm, pressDue_of_calm calm]
      cases (t.sampled reg).grouping.chordTimer.isDone t.now <;> simp [calm]

theorem chord?_eq_none_iff (calm : t.gaming reg = false) :
    t.chord? reg = none ↔ (t.sampled reg).grouping.chordTimer.isDone t.now = false := by
  unfold chord?
  rw [pressDue_of_calm calm, calm]
  cases (t.sampled reg).grouping.chordTimer.isDone t.now <;> simp

theorem pressPhase_of_chord {bits : Pattern B} (h : t.chord? reg = some bits) :
    (t.before.sample t.now (t.gaming reg) t.down).pressPhase reg t.now (t.gaming reg) =
      (t.sending reg).dispatch reg (Chord.ofBits t.before.mode bits) := by
  obtain ⟨calm, done, hbits⟩ := chord?_eq_some_iff.1 h
  have hdue : ((t.sampled reg).pressDue t.now (t.gaming reg)).1 = true :=
    (pressDue_of_calm calm).trans done
  unfold Engine.pressPhase
  refine (if_pos hdue).trans ?_
  rw [sending, ← hbits, sampled, calm]
  rfl

theorem pressPhase_of_no_chord (calm : t.gaming reg = false) (h : t.chord? reg = none) :
    (t.before.sample t.now (t.gaming reg) t.down).pressPhase reg t.now (t.gaming reg) =
      ({ t.before with switches := t.sampled reg }, []) := by
  have hdone := (chord?_eq_none_iff calm).1 h
  have hdue : (t.sampled reg).pressDue t.now (t.gaming reg) = (false, t.sampled reg) := by
    rw [calm, Switches.pressDue, if_neg Bool.false_ne_true]
    dsimp only
    rw [Timer.take_fst, Timer.take_snd, hdone]
    rfl
  have hswitches : (t.before.sample t.now (t.gaming reg) t.down).switches = t.sampled reg := rfl
  unfold Engine.pressPhase
  rw [hswitches, hdue]
  rfl

/-- In a gaming mode nothing changes but the switches, and of these only the
marks of what was sent. -/
theorem pressPhase_of_gaming (h : t.gaming reg = true) :
    ∃ s, (s = ((t.sampled reg).pressDue t.now true).2 ∨
        s = ((t.sampled reg).pressDue t.now true).2.markSent) ∧
      ((t.before.sample t.now (t.gaming reg) t.down).pressPhase reg t.now (t.gaming reg)).1 =
        { t.before with switches := s } := by
  have hswitches : (t.before.sample t.now (t.gaming reg) t.down).switches = t.sampled reg := rfl
  unfold Engine.pressPhase
  rw [hswitches, h]
  cases (t.sampled reg).pressDue t.now true with
  | mk due s =>
      cases due with
      | true => exact ⟨s.markSent, Or.inr rfl, rfl⟩
      | false => exact ⟨s, Or.inl rfl, rfl⟩

/-- A tick acts on at most one chord; apart from that it changes only the
switches. -/
theorem after_cases (reg : Registry B) (t : Tick B n) :
    (t.chord? reg = none ∧ ∃ switches, t.after reg = { t.before with switches }) ∨
      ∃ bits switches, t.chord? reg = some bits ∧
        t.after reg =
          { ((t.sending reg).dispatch reg (Chord.ofBits t.before.mode bits)).1 with
            switches } := by
  have hafter : ∃ switches, t.after reg =
      { ((t.before.sample t.now (t.gaming reg) t.down).pressPhase reg t.now
        (t.gaming reg)).1 with switches } := ⟨_, rfl⟩
  obtain ⟨switches, hafter⟩ := hafter
  cases hchord : t.chord? reg with
  | some bits =>
      rw [pressPhase_of_chord hchord] at hafter
      exact Or.inr ⟨bits, switches, rfl, hafter⟩
  | none =>
      refine Or.inl ⟨rfl, switches, ?_⟩
      cases hgaming : t.gaming reg with
      | true =>
          obtain ⟨sent, -, hsent⟩ := pressPhase_of_gaming hgaming
          rw [hafter, hsent]
      | false =>
          rw [hafter, pressPhase_of_no_chord hgaming hchord]

/-- In a chorded mode a tick does what its chord comes to, if there is one, and then
reports the releases that are due. -/
theorem calm_cases (calm : t.gaming reg = false) :
    ∃ o : Engine.Outcome B n,
      ((t.chord? reg = none ∧ o = ({ t.before with switches := t.sampled reg }, [])) ∨
        ∃ bits, t.chord? reg = some bits ∧
          Engine.Dispatched reg (t.sending reg) (Chord.ofBits t.before.mode bits) o) ∧
      t.after reg = (o.1.releasePhase t.now false).1 ∧
      t.reports reg = o.2 ++ (o.1.releasePhase t.now false).2 := by
  refine ⟨(t.before.sample t.now (t.gaming reg) t.down).pressPhase reg t.now (t.gaming reg),
    ?_, ?_, ?_⟩
  · cases hchord : t.chord? reg with
    | none => exact Or.inl ⟨rfl, pressPhase_of_no_chord calm hchord⟩
    | some bits =>
        rw [pressPhase_of_chord hchord]
        exact Or.inr ⟨bits, rfl, Engine.dispatched_dispatch ..⟩
  · rw [← calm]
    rfl
  · rw [← calm]
    rfl

/-- The reports of a tick begin with those of its chord. -/
theorem reports_of_chord {bits : Pattern B} (h : t.chord? reg = some bits) :
    ((t.sending reg).dispatch reg (Chord.ofBits t.before.mode bits)).2 <+: t.reports reg := by
  rw [← pressPhase_of_chord h]
  exact List.prefix_append _ _

theorem settings_after (reg : Registry B) (t : Tick B n) :
    (t.after reg).settings = t.before.settings := by
  rcases after_cases reg t with ⟨-, switches, h⟩ | ⟨bits, switches, -, h⟩
  · rw [h]
  · rw [h]
    exact (Engine.dispatched_dispatch ..).settings

/-! ## The switches after a tick -/

/-- In a chorded mode the switches go through a sample, then perhaps a chord and
the reuse of its modifiers, then the question for releases. -/
theorem switches_after (calm : t.gaming reg = false) :
    (t.chord? reg = none ∧
        (t.after reg).switches = ((t.sampled reg).releaseDue t.now false).2) ∨
      ∃ bits s, t.chord? reg = some bits ∧
        (s = (t.sending reg).switches ∨ ∃ c, s = (t.sending reg).switches.reuseMods reg c) ∧
        (t.after reg).switches = (s.releaseDue t.now false).2 := by
  have hafter : (t.after reg).switches =
      (((t.before.sample t.now (t.gaming reg) t.down).pressPhase reg t.now
        (t.gaming reg)).1.switches.releaseDue t.now (t.gaming reg)).2 := rfl
  cases hchord : t.chord? reg with
  | none =>
      rw [pressPhase_of_no_chord calm hchord, calm] at hafter
      exact Or.inl ⟨rfl, hafter⟩
  | some bits =>
      rw [pressPhase_of_chord hchord, calm] at hafter
      exact Or.inr ⟨bits, _, rfl, (Engine.dispatched_dispatch ..).switches, hafter⟩

theorem sending_of_calm (calm : t.gaming reg = false) (h : (t.chord? reg).isSome) :
    (t.sending reg).switches =
      { (t.sampled reg).markSent with
        grouping := { (t.sampled reg).grouping with
          chordTimer := (t.sampled reg).grouping.chordTimer.disable } } := by
  obtain ⟨bits, hbits⟩ := Option.isSome_iff_exists.1 h
  obtain ⟨-, done, -⟩ := chord?_eq_some_iff.1 hbits
  rw [sending, calm, Switches.pressDue, if_neg Bool.false_ne_true]
  dsimp only
  rw [Timer.take_snd, if_pos done]
  rfl

/-- Without a chord a tick leaves the slots where the sample put them; with one
the pressed slots are sent, and some that are down may be reused. -/
theorem slots_after (calm : t.gaming reg = false) (i : Fin n) :
    (t.chord? reg = none ∧ (t.after reg).switches.slots[i] = (t.sampled reg).slots[i]) ∨
      ((t.chord? reg).isSome ∧
        ((t.after reg).switches.slots[i] = (t.sampled reg).slots[i].markSent ∨
          (t.after reg).switches.slots[i] = (t.sampled reg).slots[i].markSent.reuse)) := by
  rcases switches_after calm with ⟨hnone, hafter⟩ | ⟨bits, s, hbits, hs, hafter⟩
  · refine Or.inl ⟨hnone, ?_⟩
    rw [hafter]
    rfl
  · have hsome : (t.chord? reg).isSome := Option.isSome_iff_exists.2 ⟨bits, hbits⟩
    have hmark : (t.sending reg).switches.slots[i] = (t.sampled reg).slots[i].markSent := by
      rw [sending_of_calm calm hsome]
      simp [Switches.markSent]
    have hrelease : (t.after reg).switches.slots[i] = s.slots[i] := by
      rw [hafter]
      rfl
    refine Or.inr ⟨hsome, ?_⟩
    rw [hrelease, ← hmark]
    rcases hs with rfl | ⟨c, rfl⟩
    · exact Or.inl rfl
    · by_cases hreuse : (Switches.modSwitches reg c).has i = true
      · exact Or.inr (by simp [Switches.reuseMods, hreuse])
      · exact Or.inl (by simp [Switches.reuseMods, hreuse])

/-- In a chorded mode the switches' shared timers take note of the moves, and are then asked once
each: for held switches, for a chord and for releases. -/
theorem grouping_after (calm : t.gaming reg = false) :
    (t.after reg).switches.grouping =
      (t.before.switches.grouping.acceptAll t.now (t.moves reg)).settle t.now := by
  have hsampled : (t.sampled reg).grouping =
      { t.before.switches.grouping.acceptAll t.now (t.moves reg) with
        heldTimer := ((t.before.switches.grouping.acceptAll t.now (t.moves reg)).heldTimer.take
          t.now).2
        doubleTapped := false } := by
    rw [sampled_of_calm calm, moves_of_calm calm, Switches.updateChorded_eq]
  have hsettled : (t.before.switches.grouping.acceptAll t.now (t.moves reg)).settle t.now =
      { (t.sampled reg).grouping with
        chordTimer := ((t.sampled reg).grouping.chordTimer.take t.now).2
        releaseTimer := ((t.sampled reg).grouping.releaseTimer.take t.now).2 } := by
    rw [hsampled]
    rfl
  rw [hsettled, Timer.take_snd]
  rcases switches_after calm with ⟨hnone, hafter⟩ | ⟨bits, s, hbits, hs, hafter⟩
  · rw [hafter, (chord?_eq_none_iff calm).1 hnone]
    rfl
  · have hsent : s.grouping = (t.sending reg).switches.grouping := by
      rcases hs with rfl | ⟨c, rfl⟩ <;> rfl
    have hrelease : (t.after reg).switches.grouping =
        { s.grouping with releaseTimer := (s.grouping.releaseTimer.take t.now).2 } := by
      rw [hafter]
      rfl
    rw [hrelease, hsent, sending_of_calm calm (Option.isSome_iff_exists.2 ⟨bits, hbits⟩),
      (chord?_eq_some_iff.1 hbits).2.1]
    rfl

theorem sampled_chordTimer (calm : t.gaming reg = false) :
    (t.sampled reg).grouping.chordTimer =
      (t.before.switches.grouping.acceptAll t.now (t.moves reg)).chordTimer := by
  rw [sampled_of_calm calm, moves_of_calm calm]
  exact Switches.chordTimer_updateChorded ..

/-- The chord timer is taken by a chord and otherwise left alone. -/
theorem chordTimer_after (calm : t.gaming reg = false) :
    (t.after reg).switches.grouping.chordTimer =
      if (t.chord? reg).isSome then (t.sampled reg).grouping.chordTimer.disable
      else (t.sampled reg).grouping.chordTimer := by
  have hafter : (t.after reg).switches.grouping.chordTimer =
      ((t.sampled reg).grouping.chordTimer.take t.now).2 := by
    rw [grouping_after calm, sampled_chordTimer calm]
    rfl
  rw [hafter, Timer.take_snd]
  cases hchord : t.chord? reg with
  | none => rw [(chord?_eq_none_iff calm).1 hchord]; rfl
  | some bits => rw [(chord?_eq_some_iff.1 hchord).2.1]; rfl

/-- What a tick leaves of a slot's debounce timer, and whether it counts as down,
is the step's doing alone. -/
theorem slot_after (calm : t.gaming reg = false) (i : Fin n) :
    (t.after reg).switches.slots[i].timer =
        (t.before.switches.slots[i].step t.now (t.down i)).1.timer ∧
      (t.after reg).switches.slots[i].isDown =
        (t.before.switches.slots[i].step t.now (t.down i)).1.isDown := by
  have hsampled : (t.sampled reg).slots[i].timer =
        (t.before.switches.slots[i].step t.now (t.down i)).1.timer ∧
      (t.sampled reg).slots[i].isDown =
        (t.before.switches.slots[i].step t.now (t.down i)).1.isDown := by
    rw [sampled_of_calm calm, Switches.slot_updateChorded]
    split <;> simp
  rw [← hsampled.1, ← hsampled.2]
  rcases slots_after calm i with ⟨-, h⟩ | ⟨-, h | h⟩
  · rw [h]
    exact ⟨rfl, rfl⟩
  · rw [h]
    exact ⟨Slot.timer_markSent _, Slot.isDown_markSent _⟩
  · rw [h, Slot.timer_reuse, Slot.isDown_reuse]
    exact ⟨Slot.timer_markSent _, Slot.isDown_markSent _⟩

/-! ## A tick in a gaming mode -/

theorem sampled_of_gaming (h : t.gaming reg = true) :
    t.sampled reg = t.before.switches.updateGaming t.down := by
  rw [sampled, h]
  rfl

/-- In a gaming mode a tick either finds nothing changed and only samples, or it holds
the keys of the switches that are down, and marks them as sent. -/
theorem gaming_cases (h : t.gaming reg = true) :
    ((t.sampled reg).gamingChanged = false ∧ t.reports reg = [] ∧
        t.after reg = { t.before with switches := t.sampled reg }) ∨
      ((t.sampled reg).gamingChanged = true ∧
        t.reports reg = [.event (.hold (t.gathered reg).1 (t.gathered reg).2)] ∧
        t.after reg = { t.before with
          switches := { (t.sampled reg).markSent with gamingChanged := false } }) := by
  have hswitches : (t.before.sample t.now (t.gaming reg) t.down).switches = t.sampled reg := rfl
  unfold reports after Engine.tick Engine.pressPhase
  dsimp only
  rw [show t.before.isGaming reg = true from h]
  rw [h] at hswitches
  rw [hswitches, Switches.pressDue, if_pos rfl]
  cases hchanged : (t.sampled reg).gamingChanged with
  | false =>
      refine Or.inl ⟨rfl, rfl, ?_⟩
      have hsame : { t.sampled reg with gamingChanged := false } = t.sampled reg := by
        rw [← hchanged]
      exact congrArg (fun s => { t.before with switches := s }) hsame
  | true => exact Or.inr ⟨rfl, rfl, rfl⟩

/-- A gaming mode in which nothing is to be sent has seen no switch move. -/
theorem agree_of_unchanged (h : t.gaming reg = true)
    (unchanged : (t.sampled reg).gamingChanged = false) (i : Fin n) :
    t.before.switches.slots[i].isDown = t.down i := by
  rw [sampled_of_gaming h, Switches.updateGaming] at unchanged
  obtain ⟨-, hnone⟩ := Bool.or_eq_false_iff.1 unchanged
  have hi := List.any_eq_false.1 hnone i (List.mem_finRange i)
  simpa using hi

/-- A tick in a gaming mode turns every debounce timer off. -/
theorem slot_after_of_gaming (h : t.gaming reg = true) (i : Fin n) :
    (t.after reg).switches.slots[i].timer = t.before.switches.slots[i].timer.disable ∧
      (t.after reg).switches.slots[i].isDown = t.down i := by
  have hsampled : (t.sampled reg).slots[i] = t.before.switches.slots[i].stepGaming (t.down i) := by
    rw [sampled_of_gaming h]
    simp [Switches.updateGaming]
  rcases gaming_cases h with ⟨-, -, hafter⟩ | ⟨-, -, hafter⟩
  · rw [hafter, hsampled]
    exact ⟨rfl, Slot.isDown_stepGaming ..⟩
  · have hmark : (t.after reg).switches.slots[i] = (t.sampled reg).slots[i].markSent := by
      rw [hafter]
      simp [Switches.markSent]
    rw [hmark, Slot.timer_markSent, Slot.isDown_markSent, hsampled]
    exact ⟨rfl, Slot.isDown_stepGaming ..⟩

/-- A tick in a gaming mode leaves alone what the switches share. -/
theorem grouping_after_of_gaming (h : t.gaming reg = true) :
    (t.after reg).switches.grouping = t.before.switches.grouping := by
  have hsampled : (t.sampled reg).grouping = t.before.switches.grouping := by
    rw [sampled_of_gaming h]
    rfl
  rcases gaming_cases h with ⟨-, -, hafter⟩ | ⟨-, -, hafter⟩ <;> rw [hafter] <;> exact hsampled

/-- Neither kind of mode changes the delays that the timers will use. -/
theorem delays_after (reg : Registry B) (t : Tick B n) :
    (t.after reg).switches.grouping.SameDelays t.before.switches.grouping ∧
      ∀ i : Fin n, (t.after reg).switches.slots[i].timer.delay =
        t.before.switches.slots[i].timer.delay := by
  cases mode : t.gaming reg with
  | false =>
      constructor
      · rw [grouping_after mode]
        exact (Grouping.sameDelays_settle ..).trans (Grouping.sameDelays_acceptAll ..)
      · intro i
        rw [(slot_after mode i).1, Slot.delay_timer_step]
  | true =>
      constructor
      · rw [grouping_after_of_gaming mode]
        exact .refl _
      · intro i
        rw [(slot_after_of_gaming mode i).1]
        rfl

end Tick

/-! ## The ticks of a run -/

namespace Engine

/-- The tick that an input is, seen from the engine that it comes to. -/
def Input.tick? (e : Engine B n) : Input n → Option (Tick B n)
  | .tick now down => some ⟨e, now, down⟩
  | .control _ => none
  | .apply _ => none

/-- The ticks of a run, in their order. -/
def ticks (reg : Registry B) (e : Engine B n) : List (Input n) → List (Tick B n)
  | [] => []
  | i :: rest => (i.tick? e).toList ++ ticks reg (e.step reg i).1 rest

variable {reg : Registry B} {e : Engine B n} {i : Fin n}

theorem ticks_append (front back : List (Input n)) :
    e.ticks reg (front ++ back) =
      e.ticks reg front ++ (e.run reg front).1.ticks reg back := by
  induction front generalizing e with
  | nil => rfl
  | cons i front ih =>
      rw [List.cons_append, ticks, ticks, ih, List.append_assoc]
      rfl

/-- A run can be cut in two at each of its ticks. -/
theorem exists_inputs_of_ticks {inputs : List (Input n)} {front back : List (Tick B n)}
    {t : Tick B n} (h : e.ticks reg inputs = front ++ t :: back) :
    ∃ earlier later, inputs = earlier ++ .tick t.now t.down :: later ∧
      e.ticks reg earlier = front ∧ (e.run reg earlier).1 = t.before ∧
        (t.after reg).ticks reg later = back := by
  -- Inputs that are no ticks go to the front part.
  induction inputs generalizing e front with
  | nil => simp [ticks] at h
  | cons i rest ih =>
      rw [ticks] at h
      cases i with
      | tick now down =>
          cases front with
          | nil =>
              obtain ⟨rfl, hback⟩ := List.cons.inj h
              exact ⟨[], rest, rfl, rfl, rfl, hback⟩
          | cons t' front =>
              obtain ⟨ht', hrest⟩ := List.cons.inj h
              obtain ⟨earlier, later, rfl, hfront, hbefore, hback⟩ := ih hrest
              refine ⟨.tick now down :: earlier, later, rfl, ?_, hbefore, hback⟩
              rw [← ht', ← hfront]
              rfl
      | control m =>
          obtain ⟨earlier, later, rfl, hfront, hbefore, hback⟩ := ih h
          exact ⟨.control m :: earlier, later, rfl, hfront, hbefore, hback⟩
      | apply settings =>
          obtain ⟨earlier, later, rfl, hfront, hbefore, hback⟩ := ih h
          exact ⟨.apply settings :: earlier, later, rfl, hfront, hbefore, hback⟩

/-- What every step keeps, of the ticks so far and the engine, every run keeps. -/
theorem ticks_invariant {P : List (Tick B n) → Engine B n → Prop}
    (keeps : ∀ ts e (i : Input n), P ts e → P (ts ++ (i.tick? e).toList) (e.step reg i).1)
    {ts : List (Tick B n)} (start : P ts e) (inputs : List (Input n)) :
    P (ts ++ e.ticks reg inputs) (e.run reg inputs).1 := by
  induction inputs generalizing ts e with
  | nil => rwa [ticks, List.append_nil]
  | cons i rest ih =>
      rw [ticks, ← List.append_assoc]
      exact ih (keeps ts e i start)

/-- A step keeps what depends neither on the switches nor on the settings, if going to another
mode and acting on a chord keep it. -/
theorem step_keeps {P : Engine B n → Prop}
    (congr : ∀ {e e' : Engine B n}, P e → e'.mode = e.mode → e'.lastWord = e.lastWord →
      e'.sticky = e.sticky → P e')
    (setMode : ∀ {e : Engine B n} (mode : Nat), P e → P (e.setMode reg mode).1)
    (dispatched : ∀ {e : Engine B n} {bits : Pattern B} {o : Outcome B n}, P e →
      Dispatched reg e (Chord.ofBits e.mode bits) o → P o.1)
    (h : P e) (i : Input n) : P (e.step reg i).1 := by
  cases i with
  | tick now down =>
      show P ((⟨e, now, down⟩ : Tick B n).after reg)
      rcases Tick.after_cases reg ⟨e, now, down⟩ with ⟨-, s, hafter⟩ | ⟨bits, s, -, hafter⟩
      · rw [hafter]
        exact congr h rfl rfl rfl
      · have hsending : P ((⟨e, now, down⟩ : Tick B n).sending reg) := congr h rfl rfl rfl
        rw [hafter]
        exact congr (dispatched hsending (dispatched_dispatch ..)) rfl rfl rfl
  | control m =>
      cases m with
      | setMode mode => exact setMode mode h
      | exit => exact h
  | apply settings => exact congr h rfl rfl rfl

/-! ## One slot along a run -/

/-- A fact about the ticks so far and one slot is carried along a run, up to any of
its ticks, if the ticks keep it and it only looks at the status and at what the
debounce timer is doing. -/
theorem slot_between {C : Tick B n → Prop} {Q : List (Tick B n) → Slot → Prop}
    (ts : List (Tick B n))
    (congr : ∀ ts s s', s'.status = s.status → s'.timer.state = s.timer.state →
      Q ts s → Q ts s')
    (tick : ∀ ts t, C t → Q ts t.before.switches.slots[i] →
      Q (ts ++ [t]) (t.after reg).switches.slots[i])
    {inputs : List (Input n)} {mid back : List (Tick B n)} {b : Tick B n}
    (split : e.ticks reg inputs = mid ++ b :: back) (all : ∀ t ∈ mid, C t)
    (start : Q ts e.switches.slots[i]) : Q (ts ++ mid) b.before.switches.slots[i] := by
  obtain ⟨earlier, -, -, hmid, hbefore, -⟩ := exists_inputs_of_ticks split
  have keeps : ∀ (passed : List (Tick B n)) (e : Engine B n) (input : Input n),
      ((∀ t ∈ passed, C t) → Q (ts ++ passed) e.switches.slots[i]) →
        (∀ t ∈ passed ++ (input.tick? e).toList, C t) →
          Q (ts ++ (passed ++ (input.tick? e).toList)) (e.step reg input).1.switches.slots[i] := by
    intro passed e input h hall
    have hbefore := h fun t ht => hall t (List.mem_append_left _ ht)
    cases input with
    | tick now down =>
        rw [← List.append_assoc]
        exact tick (ts ++ passed) ⟨e, now, down⟩
          (hall _ (List.mem_append_right _ List.mem_cons_self)) hbefore
    | control m =>
        rw [Input.tick?, Option.toList_none, List.append_nil, step, (frame_control m).1]
        exact hbefore
    | apply settings =>
        -- Only the delay of the next start changes, and `Q` does not look at that.
        rw [Input.tick?, Option.toList_none, List.append_nil]
        refine congr _ _ _ (status_applySettings settings i) ?_ hbefore
        rw [step, slot_applySettings]
        rfl
  have hrun := ticks_invariant
    (P := fun passed e => (∀ t ∈ passed, C t) → Q (ts ++ passed) e.switches.slots[i])
    keeps (fun _ => (List.append_nil ts).symm ▸ start) earlier
  rw [List.nil_append, hmid, hbefore] at hrun
  exact hrun all

/-- Before the first tick of a run a slot is as it was. -/
theorem slot_of_ticks_cons {inputs : List (Input n)} {t : Tick B n} {back : List (Tick B n)}
    (split : e.ticks reg inputs = t :: back) :
    t.before.switches.slots[i].status = e.switches.slots[i].status ∧
      t.before.switches.slots[i].timer.state = e.switches.slots[i].timer.state := by
  have hcut : e.ticks reg inputs = [] ++ t :: back := split
  refine slot_between (C := fun _ => False)
    (Q := fun _ s => s.status = e.switches.slots[i].status ∧
      s.timer.state = e.switches.slots[i].timer.state) [] ?_ (fun _ _ h => h.elim) hcut
    (fun t ht => absurd ht List.not_mem_nil) ⟨rfl, rfl⟩
  rintro _ s s' status state ⟨hstatus, hstate⟩
  exact ⟨status.trans hstatus, state.trans hstate⟩

/-! ## Delays -/

/-- The delays that the timers will use are those of the settings. -/
structure Tuned (e : Engine B n) : Prop where
  chord : e.switches.grouping.chordTimer.delay = e.settings.chord
  debounce : ∀ i : Fin n, e.switches.slots[i].timer.delay = e.settings.debounce

theorem tuned_step (h : Tuned e) (i : Input n) : Tuned (e.step reg i).1 := by
  cases i with
  | tick now down =>
      obtain ⟨hdelays, hdebounce⟩ := Tick.delays_after reg ⟨e, now, down⟩
      have hsettings := Tick.settings_after reg ⟨e, now, down⟩
      constructor
      · exact (hdelays.chord.trans h.chord).trans (congrArg Settings.chord hsettings).symm
      · intro i
        exact ((hdebounce i).trans (h.debounce i)).trans
          (congrArg Settings.debounce hsettings).symm
  | control m =>
      constructor
      · rw [step, (frame_control m).1, (frame_control m).2]
        exact h.chord
      · rw [step, (frame_control m).1, (frame_control m).2]
        exact h.debounce
  | apply settings =>
      constructor
      · rfl
      · intro i
        rw [step, slot_applySettings]
        rfl

theorem tuned_of_mem_ticks {settings : Settings} {inputs : List (Input n)} {t : Tick B n}
    (h : t ∈ (fresh B n settings).ticks reg inputs) : Tuned t.before := by
  obtain ⟨front, back, split⟩ := List.append_of_mem h
  obtain ⟨earlier, -, -, -, hbefore, -⟩ := exists_inputs_of_ticks split
  have hfresh : Tuned (fresh B n settings) := by
    constructor
    · rfl
    · intro i
      simp [fresh, Switches.new, Slot.new, Timer.new]
  rw [← hbefore]
  exact run_invariant (p := Tuned) (fun e i h => tuned_step h i) hfresh earlier

end Engine

end Chordboard
