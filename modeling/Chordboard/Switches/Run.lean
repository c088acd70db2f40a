import Chordboard.Switches

/-!
# Runs of the switches

What can be done to the switches in a mode with chords: they are sampled, they are asked whether
a chord or a batch of releases is due, and the next chord is assembled. A run takes any number of
these acts, in any order and at any times. What there is to see after each of them is its answer
and the statuses.
-/

namespace Chordboard

namespace Switches

variable {n B : Nat}

/-- What is done to the switches in a mode with chords. -/
inductive Act (n : Nat) where
  | update (now : Nat) (sample : Fin n → Bool)
  | askPress (now : Nat)
  | askRelease (now : Nat)
  | assemble

/-- What the switches answer to an act. -/
inductive Answer (B : Nat) where
  | silent
  | due (yes : Bool)
  | chord (bits : Pattern B)
deriving DecidableEq

/-- What there is to see after an act. -/
structure Sight (B n : Nat) where
  answer : Answer B
  statuses : Vector SwitchStatus n
deriving DecidableEq

def statuses (s : Switches n) : Vector SwitchStatus n :=
  s.slots.map Slot.status

def perform (B : Nat) (s : Switches n) : Act n → Answer B × Switches n
  | .update now sample => (.silent, s.update now false sample)
  | .askPress now => (.due (s.pressDue now false).1, (s.pressDue now false).2)
  | .askRelease now => (.due (s.releaseDue now false).1, (s.releaseDue now false).2)
  | .assemble => (.chord (s.assemble B).1, (s.assemble B).2)

def sight (B : Nat) (s : Switches n) (a : Act n) : Sight B n :=
  ⟨(s.perform B a).1, (s.perform B a).2.statuses⟩

/-- The switches after some acts. -/
def run (B : Nat) (s : Switches n) (acts : List (Act n)) : Switches n :=
  acts.foldl (fun s a => (s.perform B a).2) s

/-- What there is to see after each of the acts. -/
def watch (B : Nat) (s : Switches n) : List (Act n) → List (Sight B n)
  | [] => []
  | a :: acts => s.sight B a :: (s.perform B a).2.watch B acts

theorem run_concat (B : Nat) (s : Switches n) (acts : List (Act n)) (a : Act n) :
    s.run B (acts ++ [a]) = ((s.run B acts).perform B a).2 :=
  List.foldl_append

theorem watch_concat (B : Nat) (s : Switches n) (acts : List (Act n)) (a : Act n) :
    s.watch B (acts ++ [a]) = s.watch B acts ++ [(s.run B acts).sight B a] := by
  induction acts generalizing s with
  | nil => rfl
  | cons first acts ih =>
      rw [List.cons_append, watch, ih]
      rfl

end Switches

end Chordboard
