import Chordboard.Proofs.Switches.Sampling

/-!
# What the moves say about double taps

The switches share a short memory: the switch of the last move, if that was a release, and a mark
for a double tap among the moves of the present tick. Both are told by the list of all moves that
were accepted so far (`lastReleased_acceptAll`, `doubleTapped_acceptAll`), and with them whether a
sample promotes the sent switches (`Recalls.promotes_iff`).
-/

namespace Chordboard

namespace Grouping

variable {n : Nat} {g : Grouping n} {earlier ms : List (Fin n × Transition)} {i : Fin n}

/-- The switch of the last move, if that was a release; a tap is one. -/
def lastReleased? (ms : List (Fin n × Transition)) : Option (Fin n) :=
  ms.getLast?.bind fun m => if m.2 = .press then none else some m.1

/-- After the moves `earlier` there is among the moves `ms` a press of the switch, and the move
before that is its release. -/
def DoubleTap (earlier ms : List (Fin n × Transition)) (i : Fin n) : Prop :=
  ∃ before after, ms = before ++ (i, .press) :: after ∧ lastReleased? (earlier ++ before) = some i

theorem lastReleased_accept (now : Nat) (g : Grouping n) (earlier : List (Fin n × Transition))
    (m : Fin n × Transition) :
    (accept now g m).lastReleased = lastReleased? (earlier ++ [m]) := by
  rw [lastReleased?, List.getLast?_concat]
  obtain ⟨i, m⟩ := m
  cases m <;> rfl

theorem lastReleased_acceptAll (now : Nat) (h : g.lastReleased = lastReleased? earlier)
    (ms : List (Fin n × Transition)) :
    (g.acceptAll now ms).lastReleased = lastReleased? (earlier ++ ms) := by
  induction ms generalizing g earlier with
  | nil => rwa [List.append_nil]
  | cons m ms ih =>
      rw [acceptAll_cons, ih (lastReleased_accept now g earlier m), List.append_assoc]
      rfl

theorem doubleTapped_accept (now : Nat) (h : g.lastReleased = lastReleased? earlier)
    (m : Fin n × Transition) :
    (accept now g m).doubleTapped = true ↔
      g.doubleTapped = true ∨ ∃ i, m = (i, .press) ∧ lastReleased? earlier = some i := by
  obtain ⟨i, m⟩ := m
  cases m with
  | press =>
      show (g.doubleTapped || g.lastReleased == some i) = true ↔ _
      rw [h]
      simp
  | release =>
      show g.doubleTapped = true ↔ _
      simp
  | tap =>
      show g.doubleTapped = true ↔ _
      simp

theorem doubleTap_cons {m : Fin n × Transition} :
    DoubleTap earlier (m :: ms) i ↔
      (m = (i, .press) ∧ lastReleased? earlier = some i) ∨ DoubleTap (earlier ++ [m]) ms i := by
  constructor
  · rintro ⟨before, after, hms, hlast⟩
    cases before with
    | nil =>
        rw [List.append_nil] at hlast
        exact Or.inl ⟨(List.cons.inj hms).1, hlast⟩
    | cons m' before =>
        obtain ⟨rfl, htail⟩ := List.cons.inj hms
        refine Or.inr ⟨before, after, htail, ?_⟩
        rwa [List.append_assoc]
  · rintro (⟨rfl, hlast⟩ | ⟨before, after, rfl, hlast⟩)
    · exact ⟨[], ms, rfl, by rwa [List.append_nil]⟩
    · refine ⟨m :: before, after, rfl, ?_⟩
      rwa [List.append_assoc] at hlast

/-- The moves of a tick set the mark of double taps if there is one among them. -/
theorem doubleTapped_acceptAll (now : Nat) (h : g.lastReleased = lastReleased? earlier)
    (ms : List (Fin n × Transition)) :
    (g.acceptAll now ms).doubleTapped = true ↔
      g.doubleTapped = true ∨ ∃ i, DoubleTap earlier ms i := by
  induction ms generalizing g earlier with
  | nil => simp [DoubleTap]
  | cons m ms ih =>
      rw [acceptAll_cons, ih (lastReleased_accept now g earlier m), doubleTapped_accept now h]
      simp only [doubleTap_cons, exists_or, or_assoc]

end Grouping

namespace Switches

variable {n now : Nat} {sample : Fin n → Bool} {s : Switches n}
  {earlier : List (Fin n × Transition)}

/-- What the switches remember of the moves before, between two samples. -/
structure Recalls (earlier : List (Fin n × Transition)) (s : Switches n) : Prop where
  lastReleased : s.grouping.lastReleased = Grouping.lastReleased? earlier
  doubleTapped : s.grouping.doubleTapped = false

/-- Sent switches are promoted for two reasons. -/
theorem Recalls.promotes_iff (recalls : s.Recalls earlier) :
    s.promotes now sample = true ↔
      (s.debounce now sample).grouping.heldTimer.isDone now = true ∨
        ∃ i, Grouping.DoubleTap earlier (s.transitions now sample) i := by
  rw [promotes, Bool.or_eq_true,
    Grouping.doubleTapped_acceptAll now recalls.lastReleased, recalls.doubleTapped]
  simp [debounce]

theorem Recalls.updateChorded (recalls : s.Recalls earlier) (now : Nat) (sample : Fin n → Bool) :
    (s.updateChorded now sample).Recalls (earlier ++ s.transitions now sample) := by
  rw [updateChorded_eq]
  exact ⟨Grouping.lastReleased_acceptAll now recalls.lastReleased _, rfl⟩

end Switches

end Chordboard
