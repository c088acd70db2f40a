import Chordboard.Proofs.Engine.Ticks

/-!
# No stuck keys

The host keeps down what the last event holds. If that is more than the sticky
modifiers, the engine still has something to go by when it comes to letting go: a
switch that is down, or the release timer (`ReleaseAhead`). In a chorded mode a
switch that goes up turns the timer on, and the timer goes off with a release. In a
gaming mode there are no releases, but every move is followed by a hold of what is
still down.
-/

namespace Chordboard

variable {B n : Nat} {reg : Registry B}

/-! ## Switches that will be released -/

namespace Switches

variable {s : Switches n}

/-- Some switch is down, or a release is pending. -/
def ReleaseAhead (s : Switches n) : Prop :=
  s.anyDown = true ∨ s.grouping.releaseTimer.isDisabled = false

theorem anyDown_iff : s.anyDown = true ↔ ∃ i : Fin n, s.slots[i].isDown = true := by
  rw [anyDown, Vector.any_eq_true]
  constructor
  · rintro ⟨i, hi, hdown⟩
    exact ⟨⟨i, hi⟩, hdown⟩
  · rintro ⟨i, hdown⟩
    exact ⟨i, i.isLt, hdown⟩

theorem ReleaseAhead.congr {s' : Switches n} (h : s.ReleaseAhead)
    (down : ∀ i : Fin n, s'.slots[i].isDown = s.slots[i].isDown)
    (timer : s'.grouping.releaseTimer.isDisabled = s.grouping.releaseTimer.isDisabled) :
    s'.ReleaseAhead := by
  rcases h with hdown | on
  · obtain ⟨i, hi⟩ := anyDown_iff.1 hdown
    exact Or.inl (anyDown_iff.2 ⟨i, (down i).trans hi⟩)
  · exact Or.inr (timer.trans on)

theorem ReleaseAhead.markSent (h : s.ReleaseAhead) : s.markSent.ReleaseAhead :=
  h.congr (fun i => by simp [Switches.markSent]) rfl

theorem ReleaseAhead.reuseMods (h : s.ReleaseAhead) (c : Chord B) :
    (s.reuseMods reg c).ReleaseAhead := by
  refine h.congr (fun i => ?_) rfl
  by_cases hreuse : (modSwitches reg c).has i = true <;> simp [Switches.reuseMods, hreuse]

/-- A switch that goes up in a chorded mode has a release coming. -/
theorem ReleaseAhead.updateChorded (h : s.ReleaseAhead) (now : Nat) (sample : Fin n → Bool) :
    (s.updateChorded now sample).ReleaseAhead := by
  unfold ReleaseAhead
  rw [releaseTimer_updateChorded]
  rcases h with hdown | on
  · obtain ⟨i, hi⟩ := anyDown_iff.1 hdown
    have hslot : (s.updateChorded now sample).slots[i].isDown =
        (s.slots[i].step now (sample i)).1.isDown := by
      rw [slot_updateChorded]
      split <;> simp
    by_cases agree : s.slots[i].isDown = sample i
    · rw [Slot.step_of_agree now agree] at hslot
      exact Or.inl (anyDown_iff.2 ⟨i, hslot.trans hi⟩)
    rcases Slot.step_differ_cases now agree with ⟨-, hsame⟩ | ⟨m, hmove, hwanted, -⟩
    · exact Or.inl (anyDown_iff.2 ⟨i, (hslot.trans hsame).trans hi⟩)
    · refine Or.inr (Grouping.releaseTimer_on_acceptAll (Or.inr ⟨(i, m), ?_, ?_⟩))
      · exact mem_transitions.2 hmove
      · -- Only a switch that is up can be pressed.
        rintro rfl
        rcases Slot.wanted_cases hwanted with ⟨-, hs, -⟩ | ⟨h', -⟩ | ⟨h', -⟩
        · rw [Slot.isDown, hs] at hi
          cases hi
        · cases h'
        · cases h'
  · exact Or.inr (Grouping.releaseTimer_on_acceptAll (Or.inl on))

theorem downSwitches_eq_nil (h : s.anyDown = false) : s.downSwitches = [] := by
  rw [downSwitches, List.map_eq_nil_iff, List.filter_eq_nil_iff]
  intro i _ hdown
  rw [anyDown_iff.2 ⟨i, hdown⟩] at h
  cases h

/-- A chord that is not empty was assembled from switches that are down. -/
theorem anyDown_of_assemble (h : ((s.assemble B).1).isBlank = false) : s.anyDown = true := by
  rw [← Bool.not_eq_true, Pattern.isBlank_iff_has, Classical.not_forall] at h
  obtain ⟨k, hk⟩ := h
  rw [Bool.not_eq_false] at hk
  rw [assemble, Pattern.has_ofSwitches, Bool.and_eq_true, decide_eq_true_eq,
    decide_eq_true_eq] at hk
  obtain ⟨i, hi, -⟩ := List.mem_map.1 hk.2
  refine anyDown_iff.2 ⟨i, ?_⟩
  have hjoins : s.slots[i].joins = true := (List.mem_filter.1 hi).2
  revert hjoins
  rw [Slot.joins, Slot.isDown]
  cases s.slots[i].status <;> decide

end Switches

/-! ## What the last event holds -/

/-- The event keeps something down that is not one of the sticky modifiers. -/
def Event.KeepsDown (sticky : UInt8) : Event → Prop
  | .hold keys mods => keys ≠ [] ∨ mods &&& ~~~sticky ≠ 0
  | .sequence .. => False
  | .release => False

theorem Event.not_keepsDown_sticky (sticky : UInt8) : ¬(hold [] sticky).KeepsDown sticky := by
  rintro (h | h)
  · exact h rfl
  · exact h UInt8.and_not_self

/-- The event that was reported last. -/
def lastEvent? (rs : List Report) : Option Event := rs.getLast?.map Report.toEvent

theorem lastEvent?_concat (rs : List Report) (r : Report) :
    lastEvent? (rs ++ [r]) = some r.toEvent := by
  rw [lastEvent?, List.getLast?_concat, Option.map_some]

namespace Engine

/-- After the reports `rs` nothing is held beyond the sticky modifiers without a release
ahead. -/
def Unstuck (rs : List Report) (e : Engine B n) : Prop :=
  ∀ ev, lastEvent? rs = some ev → ev.KeepsDown e.sticky → e.switches.ReleaseAhead

variable {rs : List Report} {e : Engine B n}

theorem unstuck_of_last {r : Report} (harmless : ¬r.toEvent.KeepsDown e.sticky) :
    Unstuck (rs ++ [r]) e := by
  intro ev hlast hkeeps
  rw [lastEvent?_concat] at hlast
  rw [← Option.some.inj hlast] at hkeeps
  exact absurd hkeeps harmless

theorem unstuck_of_releaseAhead (h : e.switches.ReleaseAhead) : Unstuck rs e :=
  fun _ _ _ => h

/-- Without a report it is enough that the switches keep their release. -/
theorem Unstuck.congr {e' : Engine B n} (h : Unstuck rs e) (sticky : e'.sticky = e.sticky)
    (ahead : e.switches.ReleaseAhead → e'.switches.ReleaseAhead) : Unstuck rs e' := by
  intro ev hlast hkeeps
  rw [sticky] at hkeeps
  exact ahead (h ev hlast hkeeps)

theorem not_keepsDown_releaseEvent (e : Engine B n) : ¬e.releaseEvent.KeepsDown e.sticky := by
  unfold releaseEvent
  split
  · exact id
  · exact Event.not_keepsDown_sticky e.sticky

/-! ## Commands -/

theorem unstuck_setMode (h : Unstuck rs e) (mode : Nat) :
    Unstuck (rs ++ (e.setMode reg mode).2) (e.setMode reg mode).1 := by
  unfold setMode
  split
  · exact unstuck_of_last id
  · rw [List.append_nil]
    exact h

theorem unstuck_cycleLastWord (h : Unstuck rs e) (what : Cycle) :
    Unstuck (rs ++ (e.cycleLastWord reg what).2) (e.cycleLastWord reg what).1 := by
  unfold cycleLastWord
  split
  · rw [List.append_nil]
    exact h
  · dsimp only
    split
    · rename_i sent hsent
      obtain ⟨found, -, rfl⟩ := sendWord?_eq_some_iff.1 hsent
      rw [List.append_cons]
      exact unstuck_of_last id
    · exact unstuck_of_last id

theorem unstuck_runCommand (h : Unstuck rs e) (command : Command) :
    Unstuck (rs ++ (e.runCommand reg command).2) (e.runCommand reg command).1 := by
  cases command with
  | cycle what => exact unstuck_cycleLastWord h what
  | releaseAll => exact unstuck_of_last id
  | toggleSticky mods => exact unstuck_of_last (not_keepsDown_releaseEvent _)
  | setMode mode => exact unstuck_setMode h mode

/-! ## Ticks -/

/-- Only a chord of modifiers holds anything, and its switches are down. -/
theorem Dispatched.unstuck {c : Chord B} {o : Outcome B n} (d : Dispatched reg e c o)
    (h : Unstuck rs e) (down : c.isEmpty = false → e.switches.anyDown = true) :
    Unstuck (rs ++ o.2) o.1 := by
  cases d with
  | blank =>
      rw [List.append_nil]
      exact h
  | noOrder =>
      rw [List.append_nil]
      exact h
  | order => exact unstuck_runCommand h _
  | mods some =>
      have ahead : e.switches.ReleaseAhead := Or.inl (down some)
      exact unstuck_of_releaseAhead (ahead.reuseMods _)
  | keys => exact unstuck_of_last id
  | word _ _ _ found =>
      obtain ⟨found, -, rfl⟩ := sendWord?_eq_some_iff.1 found
      exact unstuck_of_last id
  | unmapped =>
      rw [List.append_nil]
      exact h

/-- The release timer is only taken by a release. -/
theorem unstuck_releasePhase (h : Unstuck rs e) (now : Nat) :
    Unstuck (rs ++ (e.releasePhase now false).2) (e.releasePhase now false).1 := by
  unfold releasePhase
  rw [Switches.releaseDue, if_neg Bool.false_ne_true]
  dsimp only
  rw [Timer.take_fst, Timer.take_snd]
  cases e.switches.grouping.releaseTimer.isDone now with
  | true =>
      rw [if_pos rfl, if_pos rfl]
      exact unstuck_of_last (not_keepsDown_releaseEvent _)
  | false =>
      rw [if_neg Bool.false_ne_true, if_neg Bool.false_ne_true, List.append_nil]
      exact h

theorem unstuck_of_calm {t : Tick B n} (calm : t.gaming reg = false)
    (h : Unstuck rs t.before) : Unstuck (rs ++ t.reports reg) (t.after reg) := by
  obtain ⟨o, ho, hafter, hreports⟩ := Tick.calm_cases calm
  rw [hafter, hreports, ← List.append_assoc]
  refine unstuck_releasePhase ?_ t.now
  have hsampled : t.before.switches.ReleaseAhead → (t.sampled reg).ReleaseAhead := by
    rw [Tick.sampled_of_calm calm]
    exact fun ahead => ahead.updateChorded t.now t.down
  rcases ho with ⟨-, rfl⟩ | ⟨bits, hbits, d⟩
  · rw [List.append_nil]
    exact h.congr rfl hsampled
  · have hsending := Tick.sending_of_calm calm (Option.isSome_iff_exists.2 ⟨bits, hbits⟩)
    refine d.unstuck (h.congr rfl fun ahead => ?_) fun hsome => ?_
    · rw [hsending]
      exact (hsampled ahead).markSent.congr (fun _ => rfl) rfl
    · obtain ⟨-, -, rfl⟩ := Tick.chord?_eq_some_iff.1 hbits
      have hdown : (t.sampled reg).anyDown = true := Switches.anyDown_of_assemble hsome
      rw [hsending, Switches.anyDown_iff]
      obtain ⟨i, hi⟩ := Switches.anyDown_iff.1 hdown
      exact ⟨i, by simpa [Switches.markSent] using hi⟩

/-- In a gaming mode a move is answered by a hold of what is still down. -/
theorem unstuck_of_gaming {t : Tick B n} (gaming : t.gaming reg = true)
    (h : Unstuck rs t.before) : Unstuck (rs ++ t.reports reg) (t.after reg) := by
  have hsampled (i : Fin n) : (t.sampled reg).slots[i].isDown = t.down i := by
    rw [Tick.sampled_of_gaming gaming]
    simp [Switches.updateGaming]
  rcases Tick.gaming_cases gaming with ⟨hchanged, hreports, hafter⟩ | ⟨-, hreports, hafter⟩
  · rw [hreports, hafter, List.append_nil]
    refine h.congr rfl fun ahead => ahead.congr (fun i => ?_) ?_
    · have agree := Tick.agree_of_unchanged gaming hchanged i
      exact (hsampled i).trans agree.symm
    · rw [Tick.sampled_of_gaming gaming]
      rfl
  · rw [hreports]
    cases hdown : (t.sampled reg).anyDown with
    | true =>
        refine unstuck_of_releaseAhead ?_
        have ahead : (t.sampled reg).ReleaseAhead := Or.inl hdown
        rw [hafter]
        exact ahead.markSent.congr (fun _ => rfl) rfl
    | false =>
        have hgathered : t.gathered reg = ([], t.before.sticky) := by
          rw [Tick.gathered, Switches.assembleSingles, Switches.downSwitches_eq_nil hdown]
          rfl
        refine unstuck_of_last ?_
        rw [hgathered, hafter]
        exact Event.not_keepsDown_sticky t.before.sticky

theorem unstuck_step (h : Unstuck rs e) (i : Input n) :
    Unstuck (rs ++ (e.step reg i).2) (e.step reg i).1 := by
  cases i with
  | tick now down =>
      let t : Tick B n := ⟨e, now, down⟩
      show Unstuck (rs ++ t.reports reg) (t.after reg)
      cases mode : t.gaming reg with
      | true => exact unstuck_of_gaming mode h
      | false => exact unstuck_of_calm mode h
  | control m =>
      cases m with
      | setMode mode => exact unstuck_setMode h mode
      | exit =>
          rw [step, control, List.append_nil]
          exact h
  | apply settings =>
      rw [step, List.append_nil]
      refine h.congr rfl fun ahead => ahead.congr (fun i => ?_) rfl
      rw [slot_applySettings]
      rfl

/-- **No stuck keys.** In every state that an engine reaches: if the last event holds a
key, or a modifier that is not sticky, then some switch is still down, or the release
timer is on. -/
theorem no_stuck_keys (reg : Registry B) (settings : Settings) (inputs : List (Input n))
    {ev : Event} (last : lastEvent? ((fresh B n settings).run reg inputs).2 = some ev)
    (keeps : ev.KeepsDown ((fresh B n settings).run reg inputs).1.sticky) :
    ((fresh B n settings).run reg inputs).1.switches.anyDown = true ∨
      ((fresh B n settings).run reg inputs).1.switches.grouping.releaseTimer.isDisabled =
        false := by
  have hfresh : Unstuck [] (fresh B n settings) := by
    intro ev hlast
    cases hlast
  have hsteps : ∀ (rs : List Report) (e : Engine B n) (i : Input n), Unstuck rs e →
      Unstuck (rs ++ (step reg e i).2) (step reg e i).1 := fun _ _ i h => unstuck_step h i
  have hrun : Unstuck ([] ++ ((fresh B n settings).run reg inputs).2)
      ((fresh B n settings).run reg inputs).1 := reports_invariant hsteps hfresh inputs
  exact hrun ev last keeps

/-- Switch 0 is the shift key. -/
def shiftKey : Registry 1 where
  dictionaries := []
  modes := [⟨⟨[], [], [], []⟩, [1, Pattern.blank, Pattern.blank], Pattern.blank, [], false⟩]
  plainMods := [⟨0, Modifier.leftShift⟩]
  wordMods := [1, 2]
  nospace := 1
  capital := 2
  double := none
  shorten := none
  modCount := 3

/-- Shift goes down and is held, and has just gone up again. -/
def shiftReleased : List (Input 1) :=
  [.tick 0 fun _ => true, .tick 10000 fun _ => true, .tick 40000 fun _ => true,
    .tick 50000 fun _ => false, .tick 60000 fun _ => false]

theorem shift_not_stuck :
    start shiftKey 1 .usual = .ok (fresh 1 1 .usual) ∧
      lastEvent? ((fresh 1 1 .usual).run shiftKey shiftReleased).2 =
        some (.hold [] Modifier.leftShift) ∧
      ((fresh 1 1 .usual).run shiftKey shiftReleased).1.switches.anyDown = false ∧
      ((fresh 1 1 .usual).run shiftKey shiftReleased).1.switches.grouping.releaseTimer.isDisabled =
        false := by
  have last : lastEvent? ((fresh 1 1 .usual).run shiftKey shiftReleased).2 =
      some (.hold [] Modifier.leftShift) := by decide +kernel
  have hsticky : ((fresh 1 1 .usual).run shiftKey shiftReleased).1.sticky = 0 := by
    decide +kernel
  have keeps : (Event.hold [] Modifier.leftShift).KeepsDown
      ((fresh 1 1 .usual).run shiftKey shiftReleased).1.sticky := by
    rw [hsticky]
    exact Or.inr (by decide)
  have hup : ((fresh 1 1 .usual).run shiftKey shiftReleased).1.switches.anyDown = false := by
    decide +kernel
  refine ⟨rfl, last, hup, ?_⟩
  rcases no_stuck_keys shiftKey .usual shiftReleased last keeps with hdown | on
  · rw [hup] at hdown
    cases hdown
  · exact on

end Engine

end Chordboard
