import Chordboard.Switches

/-!
# Switches at a later time

Timers are asked how long they have been running, and never when they were started. So switches
whose running timers were all started later by the same time (`Switches.later`) answer the same to
everything that is asked of them that much later, and come out of it as such switches again.
-/

namespace Chordboard

variable {n B : Nat} {d now : Nat}

/-! ## Timers -/

def TimerState.later (d : Nat) : TimerState → TimerState
  | .running start delay => .running (start + d) delay
  | state => state

namespace Timer

/-- The timer, had it been started `d` later. -/
def later (d : Nat) (t : Timer) : Timer :=
  { t with state := t.state.later d }

theorem isDisabled_later (t : Timer) : (t.later d).isDisabled = t.isDisabled := by
  obtain ⟨state, delay⟩ := t
  cases state <;> rfl

theorem isDone_later (t : Timer) : (t.later d).isDone (now + d) = t.isDone now := by
  obtain ⟨state, delay⟩ := t
  cases state with
  | disabled => rfl
  | expired => rfl
  | running start delay =>
      show decide (delay ≤ now + d - (start + d)) = decide (delay ≤ now - start)
      rw [Nat.add_sub_add_right]

theorem take_later (t : Timer) :
    (t.later d).take (now + d) = ((t.take now).1, (t.take now).2.later d) := by
  unfold take
  rw [isDone_later]
  split <;> rfl

theorem debounce_later (t : Timer) :
    (t.later d).debounce (now + d) = ((t.debounce now).1, (t.debounce now).2.later d) := by
  unfold debounce
  rw [isDisabled_later]
  split
  · rfl
  · exact take_later t

end Timer

/-! ## Slots -/

namespace Slot

def later (d : Nat) (s : Slot) : Slot :=
  { s with timer := s.timer.later d }

theorem step_later (s : Slot) (down : Bool) :
    (s.later d).step (now + d) down = ((s.step now down).1.later d, (s.step now down).2) := by
  unfold step
  dsimp only [later]
  cases wanted s.status down with
  | none => rfl
  | some t =>
      dsimp only
      rw [Timer.debounce_later]
      split <;> rfl

theorem promote_later (s : Slot) : (s.later d).promote = s.promote.later d := by
  unfold promote
  rw [apply_ite (later d)]
  rfl

theorem markSent_later (s : Slot) : (s.later d).markSent = s.markSent.later d := by
  unfold markSent
  rw [apply_ite (later d)]
  rfl

theorem reuse_later (s : Slot) : (s.later d).reuse = s.reuse.later d := by
  unfold reuse
  rw [apply_ite (later d)]
  rfl

end Slot

/-! ## What the switches share -/

namespace Grouping

def later (d : Nat) (g : Grouping n) : Grouping n :=
  { g with
    chordTimer := g.chordTimer.later d
    releaseTimer := g.releaseTimer.later d
    heldTimer := g.heldTimer.later d }

theorem accept_later (g : Grouping n) (m : Fin n × Transition) :
    accept (now + d) (g.later d) m = (accept now g m).later d := by
  obtain ⟨i, t⟩ := m
  cases t <;> rfl

theorem acceptAll_later (g : Grouping n) (ms : List (Fin n × Transition)) :
    (g.later d).acceptAll (now + d) ms = (g.acceptAll now ms).later d := by
  induction ms generalizing g with
  | nil => rfl
  | cons m ms ih => rw [acceptAll_cons, acceptAll_cons, accept_later, ih]

end Grouping

/-! ## All switches -/

namespace Switches

/-- The switches, had all their running timers been started `d` later. -/
def later (d : Nat) (s : Switches n) : Switches n :=
  { s with slots := s.slots.map (Slot.later d), grouping := s.grouping.later d }

theorem getElem_later (s : Switches n) (i : Nat) (h : i < n) :
    (s.later d).slots[i] = s.slots[i].later d :=
  Vector.getElem_map _ h

/-- Nothing runs in the beginning. -/
theorem later_new (settings : Settings) : (new n settings).later d = new n settings := by
  refine Switches.ext (Vector.ext fun i h => ?_) rfl rfl
  rw [getElem_later]
  simp only [new, Vector.getElem_replicate]
  rfl

theorem transitions_later (s : Switches n) (sample : Fin n → Bool) :
    (s.later d).transitions (now + d) sample = s.transitions now sample := by
  unfold transitions
  simp only [getElem_slots, getElem_later, Slot.step_later]

theorem debounce_later (s : Switches n) (sample : Fin n → Bool) :
    (s.later d).debounce (now + d) sample = (s.debounce now sample).later d := by
  refine Switches.ext (Vector.ext fun i h => ?_) ?_ rfl
  · rw [getElem_later]
    simp only [debounce, getElem_stepSlots, getElem_later, Slot.step_later]
  · show (s.grouping.later d).acceptAll (now + d) ((s.later d).transitions (now + d) sample) = _
    rw [transitions_later, Grouping.acceptAll_later]
    rfl

theorem promoteSent_later (s : Switches n) :
    (s.later d).promoteSent = s.promoteSent.later d := by
  refine Switches.ext (Vector.ext fun i h => ?_) rfl rfl
  rw [getElem_later]
  simp only [promoteSent, Vector.getElem_map, getElem_later, Slot.promote_later]

theorem checkHeld_later (s : Switches n) :
    (s.later d).checkHeld (now + d) = (s.checkHeld now).later d := by
  unfold checkHeld
  rw [show (s.later d).grouping.heldTimer = s.grouping.heldTimer.later d from rfl,
    Timer.take_later]
  dsimp only
  split
  · exact promoteSent_later
      { s with grouping := { s.grouping with heldTimer := (s.grouping.heldTimer.take now).2 } }
  · rfl

theorem checkDoubleTap_later (s : Switches n) :
    (s.later d).checkDoubleTap = s.checkDoubleTap.later d := by
  unfold checkDoubleTap
  rw [show (s.later d).grouping.doubleTapped = s.grouping.doubleTapped from rfl]
  split
  · exact promoteSent_later { s with grouping := { s.grouping with doubleTapped := false } }
  · rfl

theorem updateChorded_later (s : Switches n) (sample : Fin n → Bool) :
    (s.later d).updateChorded (now + d) sample = (s.updateChorded now sample).later d := by
  unfold updateChorded
  rw [debounce_later, checkHeld_later, checkDoubleTap_later]

theorem updateGaming_later (s : Switches n) (sample : Fin n → Bool) :
    (s.later d).updateGaming sample = (s.updateGaming sample).later d := by
  refine Switches.ext (Vector.ext fun i h => ?_) rfl ?_
  · rw [getElem_later]
    simp only [updateGaming, Vector.getElem_ofFn, getElem_slots, getElem_later]
    rfl
  · simp only [updateGaming, later, getElem_slots, Vector.getElem_map]
    rfl

theorem update_later (s : Switches n) (gaming : Bool) (sample : Fin n → Bool) :
    (s.later d).update (now + d) gaming sample = (s.update now gaming sample).later d := by
  unfold update
  split
  · exact updateGaming_later s sample
  · exact updateChorded_later s sample

theorem pressDue_later (s : Switches n) (gaming : Bool) :
    (s.later d).pressDue (now + d) gaming =
      ((s.pressDue now gaming).1, (s.pressDue now gaming).2.later d) := by
  unfold pressDue
  rw [show (s.later d).grouping.chordTimer = s.grouping.chordTimer.later d from rfl,
    Timer.take_later]
  split <;> rfl

theorem releaseDue_later (s : Switches n) (gaming : Bool) :
    (s.later d).releaseDue (now + d) gaming =
      ((s.releaseDue now gaming).1, (s.releaseDue now gaming).2.later d) := by
  unfold releaseDue
  rw [show (s.later d).grouping.releaseTimer = s.grouping.releaseTimer.later d from rfl,
    Timer.take_later]
  split <;> rfl

theorem markSent_later (s : Switches n) : (s.later d).markSent = s.markSent.later d := by
  refine Switches.ext (Vector.ext fun i h => ?_) rfl rfl
  rw [getElem_later]
  simp only [markSent, Vector.getElem_map, getElem_later, Slot.markSent_later]

theorem assemble_later (s : Switches n) :
    (s.later d).assemble B = ((s.assemble B).1, (s.assemble B).2.later d) := by
  have hjoining : (s.later d).joining = s.joining := by
    unfold joining
    simp only [getElem_slots, getElem_later]
    rfl
  unfold assemble
  rw [hjoining, markSent_later]

theorem assembleSingles_later (s : Switches n) (mode : Nat) :
    (s.later d).assembleSingles B mode =
      ((s.assembleSingles B mode).1, (s.assembleSingles B mode).2.later d) := by
  have hdown : (s.later d).downSwitches = s.downSwitches := by
    unfold downSwitches
    simp only [getElem_slots, getElem_later]
    rfl
  unfold assembleSingles
  rw [hdown, markSent_later]

theorem reuseMods_later (s : Switches n) (reg : Registry B) (c : Chord B) :
    (s.later d).reuseMods reg c = (s.reuseMods reg c).later d := by
  refine Switches.ext (Vector.ext fun i h => ?_) rfl rfl
  rw [getElem_later]
  simp only [reuseMods, Vector.getElem_ofFn, getElem_slots, getElem_later, Slot.reuse_later]
  rw [apply_ite (Slot.later d)]

theorem applySettings_later (s : Switches n) (settings : Settings) :
    (s.later d).applySettings settings = (s.applySettings settings).later d := by
  refine Switches.ext (Vector.ext fun i h => ?_) rfl rfl
  rw [getElem_later]
  simp only [applySettings, Vector.getElem_map, getElem_later]
  rfl

end Switches

end Chordboard
