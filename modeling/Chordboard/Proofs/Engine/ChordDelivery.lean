import Chordboard.Proofs.Engine.Ticks

/-!
# Every press is sent in one chord

In a run without gaming modes a press that is accepted waits for the next chord
(`pending`) and leaves with it: a chord that is assembled consists of the
switches whose presses wait and of those that are held. It is never assembled
for held switches alone, because the chord timer only runs while a press waits
(`Waiting`).

Two presses go into one chord when the second comes before the delay of the
first is over: nothing but a press or a tap touches the chord timer
(`chord?_eq_none_of_running`).
-/

namespace Chordboard

variable {B n : Nat} {reg : Registry B}

namespace Tick

/-! ## Presses that wait -/

/-- The presses that wait for a chord once the ticks are over. -/
def pending (reg : Registry B) (ts : List (Tick B n)) : List (Fin n) :=
  ts.foldl (fun waiting t => if (t.chord? reg).isSome then [] else waiting ++ t.presses reg) []

/-- The first chord that is assembled. -/
def nextChord? (reg : Registry B) (ts : List (Tick B n)) : Option (Pattern B) :=
  ts.findSome? (Tick.chord? reg)

theorem pending_concat (ts : List (Tick B n)) (t : Tick B n) :
    pending reg (ts ++ [t]) =
      if (t.chord? reg).isSome then [] else pending reg ts ++ t.presses reg := by
  simp [pending, List.foldl_append]

/-! ## The switches at one tick -/

variable {t : Tick B n}

theorem sampled_pressed_iff (calm : t.gaming reg = false) {i : Fin n} :
    (t.sampled reg).slots[i].status = .pressed ↔
      t.before.switches.slots[i].status = .pressed ∨ i ∈ t.presses reg := by
  rw [sampled_of_calm calm, mem_presses, moves_of_calm calm]
  exact Switches.updateChorded_pressed_iff

/-- A chord sends every switch that is pressed. -/
theorem after_pressed_iff (calm : t.gaming reg = false) {i : Fin n} :
    (t.after reg).switches.slots[i].status = .pressed ↔
      t.chord? reg = none ∧ (t.sampled reg).slots[i].status = .pressed := by
  rcases slots_after calm i with ⟨hnone, hafter⟩ | ⟨hsome, hafter⟩
  · rw [hafter]
    exact ⟨fun h => ⟨hnone, h⟩, And.right⟩
  · have hsent : (t.after reg).switches.slots[i].status ≠ .pressed := by
      rcases hafter with h | h
      · rw [h]
        exact Slot.markSent_not_pressed _
      · rw [h]
        exact Slot.reuse_not_pressed (Slot.markSent_not_pressed _)
    refine ⟨fun h => absurd h hsent, ?_⟩
    rintro ⟨hnone, -⟩
    rw [hnone] at hsome
    cases hsome

/-- A chord consists of the pressed and the held switches. -/
theorem has_chord_iff (hn : n ≤ 8 * B) {bits : Pattern B} (h : t.chord? reg = some bits)
    (i : Fin n) :
    bits.has i = true ↔ (t.sampled reg).slots[i].status = .pressed ∨
      (t.sampled reg).slots[i].status = .held := by
  obtain ⟨-, -, rfl⟩ := chord?_eq_some_iff.1 h
  rw [Switches.has_assemble hn i.isLt, Slot.joins, Bool.or_eq_true, beq_iff_eq, beq_iff_eq]
  exact Iff.rfl

theorem lt_of_has_chord {bits : Pattern B} (h : t.chord? reg = some bits) {k : Nat}
    (hk : bits.has k = true) : k < n := by
  obtain ⟨-, -, rfl⟩ := chord?_eq_some_iff.1 h
  rw [Switches.assemble, Pattern.has_ofSwitches, Bool.and_eq_true, decide_eq_true_eq,
    decide_eq_true_eq] at hk
  obtain ⟨i, -, rfl⟩ := List.mem_map.1 hk.2
  exact i.isLt

/-! ## The chord timer at one tick -/

/-- No press and no tap is accepted. -/
def Quiet (reg : Registry B) (t : Tick B n) : Prop :=
  ∀ m ∈ t.moves reg, m.2 = .release

theorem quiet_of_presses_eq_nil (noTap : ∀ m ∈ t.moves reg, m.2 ≠ .tap)
    (noPress : t.presses reg = []) : t.Quiet reg := by
  intro m hm
  cases hmove : m.2 with
  | press =>
      have hpress : m.1 ∈ t.presses reg := mem_presses.2 (hmove ▸ hm)
      rw [noPress] at hpress
      cases hpress
  | release => rfl
  | tap => exact absurd hmove (noTap m hm)

theorem presses_eq_nil_of_quiet (quiet : t.Quiet reg) : t.presses reg = [] := by
  refine List.eq_nil_iff_forall_not_mem.2 fun i hi => ?_
  cases quiet _ (mem_presses.1 hi)

theorem chordTimer_of_quiet (calm : t.gaming reg = false) (quiet : t.Quiet reg) :
    (t.sampled reg).grouping.chordTimer = t.before.switches.grouping.chordTimer := by
  rw [sampled_chordTimer calm]
  exact Grouping.chordTimer_acceptAll_of_releases quiet

/-- Only a timer that is on is ever done. -/
theorem chordTimer_on_of_chord {bits : Pattern B} (h : t.chord? reg = some bits) :
    (t.sampled reg).grouping.chordTimer.isDisabled = false := by
  obtain ⟨-, done, -⟩ := chord?_eq_some_iff.1 h
  cases hoff : (t.sampled reg).grouping.chordTimer.isDisabled with
  | false => rfl
  | true =>
      rw [Timer.isDone_eq_false_of_isDisabled hoff] at done
      cases done

/-- Presses and taps both leave their switch pressed. -/
theorem exists_sampled_pressed_of_not_quiet (calm : t.gaming reg = false)
    (loud : ¬t.Quiet reg) : ∃ i : Fin n, (t.sampled reg).slots[i].status = .pressed := by
  obtain ⟨m, hm, hmove⟩ : ∃ m ∈ t.moves reg, m.2 ≠ .release := by
    simpa [Quiet] using loud
  refine ⟨m.1, ?_⟩
  rw [moves_of_calm calm] at hm
  rw [sampled_of_calm calm]
  exact Switches.pressed_of_mem_transitions hm hmove

end Tick

namespace Engine

open Tick

variable {e : Engine B n}

/-! ## The invariant -/

/-- What is known of an engine after the ticks `ts`, none of them in a gaming
mode. -/
structure Waiting (reg : Registry B) (ts : List (Tick B n)) (e : Engine B n) : Prop where
  pressed_iff : ∀ i : Fin n, e.switches.slots[i].status = .pressed ↔ i ∈ pending reg ts
  /-- The chord timer is off unless some press waits. -/
  exists_pressed : e.switches.grouping.chordTimer.isDisabled = false →
    ∃ i : Fin n, e.switches.slots[i].status = .pressed

/-- Once the sample is taken, the chord timer is off unless some press waits. -/
theorem Waiting.exists_sampled_pressed {t : Tick B n} (calm : t.gaming reg = false)
    {ts : List (Tick B n)} (h : Waiting reg ts t.before)
    (on : (t.sampled reg).grouping.chordTimer.isDisabled = false) :
    ∃ i : Fin n, (t.sampled reg).slots[i].status = .pressed := by
  by_cases quiet : t.Quiet reg
  · -- The timer is as it was, and whatever was pressed still is.
    rw [chordTimer_of_quiet calm quiet] at on
    obtain ⟨i, hi⟩ := h.exists_pressed on
    exact ⟨i, (sampled_pressed_iff calm).2 (Or.inl hi)⟩
  · exact exists_sampled_pressed_of_not_quiet calm quiet

theorem Waiting.tick {t : Tick B n} (calm : t.gaming reg = false) {ts : List (Tick B n)}
    (h : Waiting reg ts t.before) : Waiting reg (ts ++ [t]) (t.after reg) where
  pressed_iff i := by
    rw [after_pressed_iff calm, sampled_pressed_iff calm, h.pressed_iff, pending_concat,
      ← List.mem_append]
    cases t.chord? reg <;> simp
  exists_pressed on := by
    rw [chordTimer_after calm] at on
    cases hchord : t.chord? reg with
    | some bits =>
        rw [hchord] at on
        cases on
    | none =>
        rw [hchord] at on
        obtain ⟨i, hi⟩ := h.exists_sampled_pressed calm on
        exact ⟨i, (after_pressed_iff calm).2 ⟨hchord, hi⟩⟩

theorem Waiting.congr {ts : List (Tick B n)} {e' : Engine B n} (h : Waiting reg ts e)
    (switches : e'.switches = e.switches) : Waiting reg ts e' := by
  constructor
  · rw [switches]
    exact h.pressed_iff
  · rw [switches]
    exact h.exists_pressed

theorem Waiting.applySettings {ts : List (Tick B n)} (h : Waiting reg ts e)
    (settings : Settings) : Waiting reg ts (e.applySettings settings) := by
  constructor
  · intro i
    rw [status_applySettings]
    exact h.pressed_iff i
  · intro on
    obtain ⟨i, hi⟩ := h.exists_pressed on
    exact ⟨i, (status_applySettings settings i).trans hi⟩

theorem waiting_fresh (reg : Registry B) (n : Nat) (settings : Settings) :
    Waiting reg [] (fresh B n settings) where
  pressed_iff i := by simp [fresh, Switches.new, Slot.new, pending]
  exists_pressed on := by cases on

theorem waiting_step {ts : List (Tick B n)} (h : Waiting reg ts e) (i : Input n)
    (calm : ∀ t ∈ (i.tick? e).toList, t.gaming reg = false) :
    Waiting reg (ts ++ (i.tick? e).toList) (e.step reg i).1 := by
  cases i with
  | tick now down =>
      have hcalm : (⟨e, now, down⟩ : Tick B n).gaming reg = false :=
        calm _ List.mem_cons_self
      exact Waiting.tick hcalm h
  | control m =>
      rw [Input.tick?, Option.toList_none, List.append_nil]
      exact h.congr (frame_control m).1
  | apply settings =>
      rw [Input.tick?, Option.toList_none, List.append_nil]
      exact h.applySettings settings

theorem waiting_run (settings : Settings) (inputs : List (Input n))
    (calm : ∀ t ∈ (fresh B n settings).ticks reg inputs, t.gaming reg = false) :
    Waiting reg ((fresh B n settings).ticks reg inputs)
      ((fresh B n settings).run reg inputs).1 := by
  have keeps : ∀ (ts : List (Tick B n)) (e : Engine B n) (i : Input n),
      ((∀ t ∈ ts, t.gaming reg = false) → Waiting reg ts e) →
        (∀ t ∈ ts ++ (i.tick? e).toList, t.gaming reg = false) →
          Waiting reg (ts ++ (i.tick? e).toList) (e.step reg i).1 := by
    intro ts e i h hcalm
    exact waiting_step (h fun t ht => hcalm t (List.mem_append_left _ ht)) i
      fun t ht => hcalm t (List.mem_append_right _ ht)
  exact ticks_invariant (P := fun ts e => (∀ t ∈ ts, t.gaming reg = false) → Waiting reg ts e)
    keeps (fun _ => waiting_fresh reg n settings) inputs calm

/-! ## From a press to its chord -/

/-- A pressed switch stays pressed until a chord takes it. -/
theorem pressed_step (hn : n ≤ 8 * B) {i : Input n}
    (calm : ∀ t ∈ (i.tick? e).toList, t.gaming reg = false) {s : Fin n}
    (h : e.switches.slots[s].status = .pressed) :
    ((∀ t ∈ (i.tick? e).toList, t.chord? reg = none) ∧
        (e.step reg i).1.switches.slots[s].status = .pressed) ∨
      ∃ t bits, i.tick? e = some t ∧ t.chord? reg = some bits ∧ bits.has s = true := by
  cases i with
  | tick now down =>
      have hcalm : (⟨e, now, down⟩ : Tick B n).gaming reg = false :=
        calm _ List.mem_cons_self
      have hsampled := (sampled_pressed_iff hcalm).2 (Or.inl h)
      cases hchord : (⟨e, now, down⟩ : Tick B n).chord? reg with
      | some bits =>
          have hbits := (has_chord_iff hn hchord s).2 (Or.inl hsampled)
          exact Or.inr ⟨_, bits, rfl, hchord, hbits⟩
      | none =>
          refine Or.inl ⟨?_, (after_pressed_iff hcalm).2 ⟨hchord, hsampled⟩⟩
          intro t ht
          rw [List.mem_singleton.1 ht]
          exact hchord
  | control m =>
      refine Or.inl ⟨fun t ht => absurd ht List.not_mem_nil, ?_⟩
      rw [step, (frame_control m).1]
      exact h
  | apply settings =>
      refine Or.inl ⟨fun t ht => absurd ht List.not_mem_nil, ?_⟩
      exact (status_applySettings settings s).trans h

/-- The next chord takes every switch that is pressed. -/
theorem has_nextChord (hn : n ≤ 8 * B) {inputs : List (Input n)}
    (calm : ∀ t ∈ e.ticks reg inputs, t.gaming reg = false) {s : Fin n}
    (h : e.switches.slots[s].status = .pressed) {bits : Pattern B}
    (hnext : nextChord? reg (e.ticks reg inputs) = some bits) : bits.has s = true := by
  induction inputs generalizing e with
  | nil => cases hnext
  | cons i rest ih =>
      rw [ticks] at calm hnext
      rw [nextChord?, List.findSome?_append] at hnext
      have hcalm : ∀ t ∈ (i.tick? e).toList, t.gaming reg = false :=
        fun t ht => calm t (List.mem_append_left _ ht)
      have hrest : ∀ t ∈ (e.step reg i).1.ticks reg rest, t.gaming reg = false :=
        fun t ht => calm t (List.mem_append_right _ ht)
      rcases pressed_step hn hcalm h with
        ⟨hnone, hstill⟩ | ⟨t, bits', ht, hchord, hbits⟩
      · rw [List.findSome?_eq_none_iff.2 hnone, Option.none_or] at hnext
        exact ih hrest hstill hnext
      · rw [ht, Option.toList_some, List.findSome?_singleton, hchord, Option.some_or] at hnext
        rw [← Option.some.inj hnext]
        exact hbits

/-- While the chord timer runs, ticks without a press or a tap assemble no
chord. -/
theorem chord?_eq_none_of_running {start delay : Nat} {inputs : List (Input n)}
    (running : e.switches.grouping.chordTimer.state = .running start delay)
    (calm : ∀ t ∈ e.ticks reg inputs, t.gaming reg = false)
    (quiet : ∀ t ∈ e.ticks reg inputs, t.Quiet reg)
    (early : ∀ t ∈ e.ticks reg inputs, t.now - start < delay) :
    ∀ t ∈ e.ticks reg inputs, t.chord? reg = none := by
  induction inputs generalizing e with
  | nil =>
      intro t ht
      cases ht
  | cons i rest ih =>
      cases i with
      | tick now down =>
          let first : Tick B n := ⟨e, now, down⟩
          have hfirst : first ∈ e.ticks reg (.tick now down :: rest) := List.mem_cons_self
          have hrest : ∀ t ∈ (first.after reg).ticks reg rest,
              t ∈ e.ticks reg (.tick now down :: rest) := fun t => List.mem_cons_of_mem first
          have hsampled : (first.sampled reg).grouping.chordTimer =
              e.switches.grouping.chordTimer :=
            chordTimer_of_quiet (calm first hfirst) (quiet first hfirst)
          have hnone : first.chord? reg = none := by
            have hearly := early first hfirst
            rw [chord?_eq_none_iff (calm first hfirst), hsampled, Timer.isDone_of_running running]
            exact decide_eq_false (Nat.not_le.2 hearly)
          have hafter : (first.after reg).switches.grouping.chordTimer.state =
              .running start delay := by
            rw [chordTimer_after (calm first hfirst), hnone, hsampled]
            exact running
          intro t ht
          rcases List.mem_cons.1 ht with rfl | ht
          · exact hnone
          · exact ih hafter (fun t ht => calm t (hrest t ht)) (fun t ht => quiet t (hrest t ht))
              (fun t ht => early t (hrest t ht)) t ht
      | control m =>
          have hstep : (e.step reg (.control m)).1.switches = e.switches := (frame_control m).1
          rw [← hstep] at running
          exact ih running calm quiet early
      | apply settings => exact ih running calm quiet early

/-! ## Runs without gaming modes -/

variable {settings : Settings} {inputs : List (Input n)}

theorem waiting_at (calm : ∀ t ∈ (fresh B n settings).ticks reg inputs, t.gaming reg = false)
    {front back : List (Tick B n)} {t : Tick B n}
    (split : (fresh B n settings).ticks reg inputs = front ++ t :: back) :
    Waiting reg front t.before := by
  obtain ⟨earlier, later, -, hfront, hbefore, -⟩ := exists_inputs_of_ticks split
  have hcalm : ∀ t ∈ (fresh B n settings).ticks reg earlier, t.gaming reg = false := by
    intro t ht
    rw [hfront] at ht
    exact calm t (split ▸ List.mem_append_left _ ht)
  rw [← hfront, ← hbefore]
  exact waiting_run settings earlier hcalm

/-- An assembled chord is made of the presses that wait and of held switches, and
some press waits. -/
theorem has_chord (hn : n ≤ 8 * B)
    (calm : ∀ t ∈ (fresh B n settings).ticks reg inputs, t.gaming reg = false)
    {front back : List (Tick B n)} {t : Tick B n} {bits : Pattern B}
    (split : (fresh B n settings).ticks reg inputs = front ++ t :: back)
    (chord : t.chord? reg = some bits) :
    (∀ i : Fin n, bits.has i = true ↔
        i ∈ pending reg front ++ t.presses reg ∨ (t.sampled reg).slots[i].status = .held) ∧
      (∀ k, bits.has k = true → k < n) ∧
      ∃ i ∈ pending reg front ++ t.presses reg, bits.has i = true := by
  have hcalm : t.gaming reg = false := (chord?_eq_some_iff.1 chord).1
  have hwaiting := waiting_at calm split
  have hpressed (i : Fin n) : (t.sampled reg).slots[i].status = .pressed ↔
      i ∈ pending reg front ++ t.presses reg := by
    rw [sampled_pressed_iff hcalm, hwaiting.pressed_iff, List.mem_append]
  refine ⟨?_, fun k => lt_of_has_chord chord, ?_⟩
  · intro i
    rw [has_chord_iff hn chord, hpressed]
  · obtain ⟨i, hi⟩ := hwaiting.exists_sampled_pressed hcalm (chordTimer_on_of_chord chord)
    exact ⟨i, (hpressed i).1 hi, (has_chord_iff hn chord i).2 (Or.inl hi)⟩

/-- The chord that follows a press has its switch. -/
theorem press_has_nextChord (hn : n ≤ 8 * B)
    (calm : ∀ t ∈ e.ticks reg inputs, t.gaming reg = false)
    {front back : List (Tick B n)} {a : Tick B n}
    (split : e.ticks reg inputs = front ++ a :: back) {i : Fin n} (hi : i ∈ a.presses reg)
    {bits : Pattern B} (hnext : nextChord? reg (a :: back) = some bits) :
    bits.has i = true := by
  obtain ⟨earlier, later, -, -, -, hback⟩ := exists_inputs_of_ticks split
  have hcalm : ∀ t ∈ a :: back, t.gaming reg = false := by
    intro t ht
    exact calm t (split ▸ List.mem_append_right _ ht)
  have ha := hcalm a List.mem_cons_self
  have hsampled := (sampled_pressed_iff ha).2 (Or.inr hi)
  rw [nextChord?, List.findSome?_cons] at hnext
  cases hchord : a.chord? reg with
  | some bits' =>
      rw [hchord] at hnext
      rw [← Option.some.inj hnext]
      exact (has_chord_iff hn hchord i).2 (Or.inl hsampled)
  | none =>
      rw [hchord, ← hback] at hnext
      refine has_nextChord hn ?_ ((after_pressed_iff ha).2 ⟨hchord, hsampled⟩) hnext
      rw [hback]
      exact fun t ht => hcalm t (List.mem_cons_of_mem a ht)

/-- A press starts the chord timer with the delay in force, and no chord is
assembled right away unless that delay is zero. -/
theorem running_of_press {t : Tick B n} (calm : t.gaming reg = false) (tuned : Tuned t.before)
    (noTap : ∀ m ∈ t.moves reg, m.2 ≠ .tap) {i : Fin n} (hi : i ∈ t.presses reg)
    (wait : 0 < t.before.settings.chord) :
    t.chord? reg = none ∧ (t.after reg).switches.grouping.chordTimer.state =
      .running t.now t.before.settings.chord := by
  have hstart : (t.sampled reg).grouping.chordTimer =
      t.before.switches.grouping.chordTimer.start t.now := by
    rw [sampled_chordTimer calm]
    exact Grouping.chordTimer_acceptAll_of_press noTap ⟨(i, .press), mem_presses.1 hi, rfl⟩
  have hrunning : (t.sampled reg).grouping.chordTimer.state =
      .running t.now t.before.settings.chord := by
    rw [hstart, ← tuned.chord]
    rfl
  have hnone : t.chord? reg = none := by
    rw [chord?_eq_none_iff calm, Timer.isDone_of_running hrunning]
    exact decide_eq_false (by omega)
  refine ⟨hnone, ?_⟩
  rw [chordTimer_after calm, hnone]
  exact hrunning

/-- From a press to the next one, no chord is assembled before the delay of the
first one is over. -/
theorem chord?_eq_none_of_press
    (calm : ∀ t ∈ (fresh B n settings).ticks reg inputs, t.gaming reg = false)
    {front mid back : List (Tick B n)} {a b : Tick B n}
    (split : (fresh B n settings).ticks reg inputs = front ++ a :: (mid ++ b :: back))
    (order : (a :: mid ++ [b]).Pairwise fun s t => s.now ≤ t.now)
    (noTap : ∀ t ∈ a :: mid ++ [b], ∀ m ∈ t.moves reg, m.2 ≠ .tap)
    (noPress : ∀ t ∈ mid, t.presses reg = []) {i : Fin n} (hi : i ∈ a.presses reg)
    (early : b.now - a.now < a.before.settings.chord) :
    ∀ t ∈ a :: mid, t.chord? reg = none := by
  obtain ⟨-, later, -, -, -, hlater⟩ := exists_inputs_of_ticks split
  obtain ⟨between, -, -, hmid, -, -⟩ := exists_inputs_of_ticks hlater
  have hmem : ∀ t ∈ a :: mid, t ∈ (fresh B n settings).ticks reg inputs := by
    intro t ht
    rw [split, ← List.cons_append]
    exact List.mem_append_right _ (List.mem_append_left _ ht)
  have ha := hmem a List.mem_cons_self
  have hnow : ∀ t ∈ mid, t.now ≤ b.now := by
    intro t ht
    rw [List.cons_append, List.pairwise_cons, List.pairwise_append] at order
    exact order.2.2.2 t ht b List.mem_cons_self
  obtain ⟨hnone, hrunning⟩ := running_of_press (calm a ha) (tuned_of_mem_ticks ha)
    (noTap a List.mem_cons_self) hi (by omega)
  -- Only the tick `b` can touch the chord timer again.
  have hrest : ∀ t ∈ (a.after reg).ticks reg between, t.chord? reg = none := by
    rw [← hmid] at noPress hnow noTap hmem
    refine chord?_eq_none_of_running hrunning
      (fun t ht => calm t (hmem t (List.mem_cons_of_mem a ht))) (fun t ht => ?_) (fun t ht => ?_)
    · exact quiet_of_presses_eq_nil
        (noTap t (List.mem_append_left _ (List.mem_cons_of_mem a ht))) (noPress t ht)
    · have hle := hnow t ht
      omega
  intro t ht
  rcases List.mem_cons.1 ht with rfl | ht
  · exact hnone
  · exact hrest t (hmid.symm ▸ ht)

/-- **Every press is sent in one chord.** Take any run without gaming modes.

* A chord has exactly the switches whose presses were accepted since the chord
  before it, and those that are held, and no other bits.
* Among them is one whose press was accepted since the chord before it.
* A switch stops being pressed only where a chord takes it.
* The first chord from a press on has its switch; so two presses of one tick go
  together.
* Two presses in a row, no tap between them, and the second one within the chord
  delay of the first: no chord is assembled before the second one, and the next
  chord has both. -/
theorem press_sent_in_one_chord (hn : n ≤ 8 * B) (settings : Settings) (inputs : List (Input n))
    (calm : ∀ t ∈ (fresh B n settings).ticks reg inputs, t.gaming reg = false) :
    (∀ front t back bits, (fresh B n settings).ticks reg inputs = front ++ t :: back →
      t.chord? reg = some bits →
        (∀ i : Fin n, bits.has i = true ↔
          i ∈ pending reg front ++ t.presses reg ∨ (t.sampled reg).slots[i].status = .held) ∧
        (∀ k, bits.has k = true → k < n) ∧
        ∃ i ∈ pending reg front ++ t.presses reg, bits.has i = true) ∧
    (∀ earlier (input : Input n) later, inputs = earlier ++ input :: later → ∀ s : Fin n,
      ((fresh B n settings).run reg earlier).1.switches.slots[s].status = .pressed →
        (((fresh B n settings).run reg earlier).1.step reg input).1.switches.slots[s].status =
            .pressed ∨
          ∃ t bits, input.tick? ((fresh B n settings).run reg earlier).1 = some t ∧
            t.chord? reg = some bits ∧ bits.has s = true) ∧
    (∀ front a back, (fresh B n settings).ticks reg inputs = front ++ a :: back →
      ∀ i : Fin n, i ∈ a.presses reg → ∀ bits, nextChord? reg (a :: back) = some bits →
        bits.has i = true) ∧
    ∀ front a mid b back,
      (fresh B n settings).ticks reg inputs = front ++ a :: (mid ++ b :: back) →
      (a :: mid ++ [b]).Pairwise (fun s t => s.now ≤ t.now) →
      (∀ t ∈ a :: mid ++ [b], ∀ m ∈ t.moves reg, m.2 ≠ .tap) →
      (∀ t ∈ mid, t.presses reg = []) →
      ∀ i j : Fin n, i ∈ a.presses reg → j ∈ b.presses reg →
        b.now - a.now < a.before.settings.chord →
        (∀ t ∈ a :: mid, t.chord? reg = none) ∧
          ∀ bits, nextChord? reg (b :: back) = some bits →
            bits.has i = true ∧ bits.has j = true := by
  refine ⟨fun front t back bits => has_chord hn calm, ?_, ?_, ?_⟩
  · intro earlier input later hinputs s hpressed
    have hcalm : ∀ t ∈ (input.tick? ((fresh B n settings).run reg earlier).1).toList,
        t.gaming reg = false := by
      intro t ht
      refine calm t ?_
      rw [hinputs, ticks_append, ticks]
      exact List.mem_append_right _ (List.mem_append_left _ ht)
    exact (pressed_step hn hcalm hpressed).imp_left And.right
  · intro front a back split i hi bits hnext
    exact press_has_nextChord hn calm split hi hnext
  · intro front a mid b back split order noTap noPress i j hi hj early
    have hnone := chord?_eq_none_of_press calm split order noTap noPress hi early
    refine ⟨hnone, fun bits hnext => ⟨?_, ?_⟩⟩
    · have hskip : nextChord? reg (a :: (mid ++ b :: back)) = some bits := by
        rw [← List.cons_append, nextChord?, List.findSome?_append,
          List.findSome?_eq_none_iff.2 hnone]
        exact hnext
      exact press_has_nextChord hn calm split hi hskip
    · rw [← List.cons_append, ← List.append_assoc] at split
      exact press_has_nextChord hn calm split hj hnext

/-- One mode in which no chord means anything. -/
def bareRegistry : Registry 1 where
  dictionaries := []
  modes := [⟨⟨[], [], [], []⟩, [Pattern.blank, Pattern.blank], Pattern.blank, [], false⟩]
  plainMods := []
  wordMods := [0, 1]
  nospace := 0
  capital := 1
  double := none
  shorten := none
  modCount := 2

/-- Switch 0 goes down, and switch 1 follows 15 ms later. -/
def rolled : List (Input 2) :=
  [.tick 0 (· == 0), .tick 10000 (· == 0), .tick 15000 fun _ => true,
    .tick 25000 fun _ => true, .tick 55000 fun _ => true]

/-- One of the five ticks of `rolled`. Number 1 accepts the press of switch 0 and
number 3 that of switch 1. -/
def rolledTick (k : Fin 5) : Tick 1 2 :=
  ((fresh 1 2 .usual).ticks bareRegistry rolled).get (k.cast (by decide))

theorem rolled_sent_in_one_chord :
    (rolledTick 1).presses bareRegistry = [0] ∧ (rolledTick 3).presses bareRegistry = [1] ∧
      (rolledTick 1).chord? bareRegistry = none ∧
      ∃ bits, nextChord? bareRegistry [rolledTick 3, rolledTick 4] = some bits ∧
        bits.has 0 = true ∧ bits.has 1 = true := by
  have calm : ∀ t ∈ (fresh 1 2 .usual).ticks bareRegistry rolled,
      t.gaming bareRegistry = false := by decide +kernel
  have split : (fresh 1 2 .usual).ticks bareRegistry rolled =
      [rolledTick 0] ++ rolledTick 1 :: ([rolledTick 2] ++ rolledTick 3 :: [rolledTick 4]) := rfl
  have hfirst : (rolledTick 1).presses bareRegistry = [0] := by decide +kernel
  have hsecond : (rolledTick 3).presses bareRegistry = [1] := by decide +kernel
  have order : (rolledTick 1 :: [rolledTick 2] ++ [rolledTick 3]).Pairwise
      fun s t => s.now ≤ t.now := by decide +kernel
  have noTap : ∀ t ∈ rolledTick 1 :: [rolledTick 2] ++ [rolledTick 3],
      ∀ m ∈ t.moves bareRegistry, m.2 ≠ .tap := by decide +kernel
  have noPress : ∀ t ∈ [rolledTick 2], t.presses bareRegistry = [] := by decide +kernel
  have early : (rolledTick 3).now - (rolledTick 1).now <
      (rolledTick 1).before.settings.chord := by decide +kernel
  have hnext : nextChord? bareRegistry [rolledTick 3, rolledTick 4] = some (3 : Pattern 1) := by
    decide +kernel
  obtain ⟨-, -, -, hpair⟩ := press_sent_in_one_chord (by decide) .usual rolled calm
  obtain ⟨hnone, hboth⟩ := hpair _ _ _ _ _ split order noTap noPress 0 1
    (hfirst ▸ List.mem_singleton_self 0) (hsecond ▸ List.mem_singleton_self 1) early
  exact ⟨hfirst, hsecond, hnone _ List.mem_cons_self, _, hnext, hboth _ hnext⟩

end Engine

end Chordboard
