import Chordboard.Proofs.Switches.Sampling

/-!
# Debouncing one switch

A slot and a sample either agree on whether the switch is down, and then the
debounce timer is off, or they differ, and then the timer runs until it is
due and the move is accepted.
-/

namespace Chordboard

namespace Timer

theorem debounce_of_isDisabled {t : Timer} (h : t.isDisabled = true) (now : Nat) :
    t.debounce now = (false, t.start now) := by
  rw [debounce, if_pos h]

theorem isDone_of_running {t : Timer} {start delay : Nat}
    (h : t.state = .running start delay) (now : Nat) :
    t.isDone now = decide (delay ≤ now - start) := by
  rw [isDone, h]

theorem isDisabled_of_running {t : Timer} {start delay : Nat}
    (h : t.state = .running start delay) : t.isDisabled = false := by
  rw [isDisabled, h]
  rfl

theorem debounce_of_running {t : Timer} {start delay : Nat}
    (h : t.state = .running start delay) (now : Nat) :
    t.debounce now = if delay ≤ now - start then (true, t.disable) else (false, t) := by
  rw [debounce, isDisabled_of_running h, if_neg Bool.false_ne_true, take, isDone_of_running h]
  simp

/-- A question that is answered leaves the timer off. -/
theorem isDisabled_of_debounce {t : Timer} {now : Nat} (h : (t.debounce now).1 = true) :
    (t.debounce now).2.isDisabled = true := by
  unfold debounce at h ⊢
  by_cases off : t.isDisabled = true
  · rw [if_pos off] at h
    cases h
  · rw [if_neg off, take_fst] at h
    rw [if_neg off, take_snd, if_pos h]
    rfl

theorem delay_take (t : Timer) (now : Nat) : (t.take now).2.delay = t.delay := by
  rw [take_snd]
  split <;> rfl

theorem delay_debounce (t : Timer) (now : Nat) : (t.debounce now).2.delay = t.delay := by
  unfold debounce
  split
  · rfl
  · exact delay_take t now

end Timer

namespace Slot

variable {down : Bool} {s : Slot}

theorem wanted_eq_none_iff : wanted s.status down = none ↔ s.isDown = down := by
  rw [isDown]
  cases s.status <;> cases down <;> decide

theorem isDown_mk (m : Transition) (timer : Timer) :
    (⟨m.status, timer⟩ : Slot).isDown = (m != .release) := by
  cases m <;> rfl

theorem delay_timer_step (now : Nat) (down : Bool) (s : Slot) :
    (s.step now down).1.timer.delay = s.timer.delay := by
  unfold step
  split
  · rfl
  · dsimp only
    split <;> exact Timer.delay_debounce ..

/-- Where slot and sample agree, nothing moves. -/
theorem step_of_agree (now : Nat) (h : s.isDown = down) :
    s.step now down = ({ s with timer := s.timer.disable }, none) := by
  rw [step, wanted_eq_none_iff.2 h]

/-- Where they differ, the timer is asked whether the move is due. -/
theorem step_of_differ (now : Nat) (h : s.isDown ≠ down) :
    ∃ m, wanted s.status down = some m ∧
      s.step now down =
        if (s.timer.debounce now).1 then (⟨m.status, (s.timer.debounce now).2⟩, some m)
        else ({ s with timer := (s.timer.debounce now).2 }, none) := by
  obtain ⟨m, hm⟩ := Option.ne_none_iff_exists'.1 (mt wanted_eq_none_iff.1 h)
  refine ⟨m, hm, ?_⟩
  rw [step, hm]

/-- After a difference the slot is where it was, or it has moved and its timer is
off. -/
theorem step_differ_cases (now : Nat) (h : s.isDown ≠ down) :
    ((s.step now down).2 = none ∧ (s.step now down).1.isDown = s.isDown) ∨
      ∃ m, (s.step now down).2 = some m ∧ wanted s.status down = some m ∧
        (s.step now down).1.isDown = (m != .release) ∧
        (s.step now down).1.timer.isDisabled = true := by
  obtain ⟨m, hm, hstep⟩ := step_of_differ now h
  cases hdue : (s.timer.debounce now).1 with
  | false =>
      rw [hdue, if_neg Bool.false_ne_true] at hstep
      rw [hstep]
      exact Or.inl ⟨rfl, rfl⟩
  | true =>
      rw [if_pos hdue] at hstep
      rw [hstep]
      exact Or.inr ⟨m, rfl, hm, isDown_mk .., Timer.isDisabled_of_debounce hdue⟩

/-- The first difference starts the timer. -/
theorem step_of_idle (now : Nat) (h : s.isDown ≠ down) (off : s.timer.isDisabled = true) :
    (s.step now down).2 = none ∧ (s.step now down).1.isDown = s.isDown ∧
      (s.step now down).1.timer.state = .running now s.timer.delay := by
  obtain ⟨m, -, hstep⟩ := step_of_differ now h
  rw [Timer.debounce_of_isDisabled off, if_neg Bool.false_ne_true] at hstep
  rw [hstep]
  exact ⟨rfl, rfl, rfl⟩

/-- A difference that has not lasted is waited out. -/
theorem step_of_early {now start delay : Nat} (h : s.isDown ≠ down)
    (running : s.timer.state = .running start delay) (early : now - start < delay) :
    (s.step now down).2 = none ∧ (s.step now down).1.isDown = s.isDown ∧
      (s.step now down).1.timer.state = .running start delay := by
  obtain ⟨m, -, hstep⟩ := step_of_differ now h
  rw [Timer.debounce_of_running running, if_neg (Nat.not_le.2 early),
    if_neg Bool.false_ne_true] at hstep
  rw [hstep]
  exact ⟨rfl, rfl, running⟩

/-- A difference that has lasted for the whole delay is accepted. -/
theorem step_of_due {now start delay : Nat} (h : s.isDown ≠ down)
    (running : s.timer.state = .running start delay) (due : delay ≤ now - start) :
    ∃ m, (s.step now down).2 = some m ∧ wanted s.status down = some m ∧
      (s.step now down).1.isDown = (m != .release) ∧
      (s.step now down).1.timer.isDisabled = true := by
  obtain ⟨m, hm, hstep⟩ := step_of_differ now h
  rw [Timer.debounce_of_running running, if_pos due, if_pos rfl] at hstep
  rw [hstep]
  exact ⟨m, rfl, hm, isDown_mk .., rfl⟩

end Slot

end Chordboard
