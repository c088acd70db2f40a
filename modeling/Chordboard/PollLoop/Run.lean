import Chordboard.PollLoop

/-!
# Runs of the polling loop

While a loop runs, other tasks call for something at any time between two of
its polls: they leave a control message. A run is any interleaving of calls
and polls.
-/

namespace Chordboard

namespace PollLoop

variable {B n : Nat}

/-- A call by another task, or a poll. -/
inductive Use (n : Nat) where
  | call (m : ControlMessage)
  | poll (now : Nat) (down : Fin n → Bool)

def step (reg : Registry B) (l : PollLoop B n) : Use n → PollLoop B n × List Report
  | .call m => (l.signal m, [])
  | .poll now down => l.poll reg now down

def run (reg : Registry B) (l : PollLoop B n) : List (Use n) → PollLoop B n × List Report
  | [] => (l, [])
  | u :: rest =>
      let first := l.step reg u
      let later := run reg first.1 rest
      (later.1, first.2 ++ later.2)

/-- The message that a poll takes: it waits before the poll, and no longer after
it. -/
def taken? (reg : Registry B) (now : Nat) (down : Fin n → Bool) (l : PollLoop B n) :
    Option ControlMessage :=
  if (l.poll reg now down).1.message.isNone then l.message else none

@[simp] theorem run_nil (reg : Registry B) (l : PollLoop B n) : l.run reg [] = (l, []) := rfl

theorem run_cons (reg : Registry B) (l : PollLoop B n) (u : Use n) (rest : List (Use n)) :
    l.run reg (u :: rest) =
      (((l.step reg u).1.run reg rest).1,
        (l.step reg u).2 ++ ((l.step reg u).1.run reg rest).2) := rfl

theorem run_append (reg : Registry B) (l : PollLoop B n) (front back : List (Use n)) :
    l.run reg (front ++ back) =
      (((l.run reg front).1.run reg back).1,
        (l.run reg front).2 ++ ((l.run reg front).1.run reg back).2) := by
  induction front generalizing l with
  | nil => rfl
  | cons u front ih => rw [List.cons_append, run_cons, ih, run_cons, List.append_assoc]

end PollLoop

end Chordboard
