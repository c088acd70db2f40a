import Chordboard.Engine.Tick

/-!
# Runs of the engine

Three things happen to an engine from outside: a tick with the present time
and a sample of the switches, a control message, and new settings. A run
takes any number of them, at any times, and gathers the reports in the order
in which they were made.

`run_append` cuts a run in two, and `run_invariant` carries over to runs
what every single step keeps; `reports_invariant` does so for what is said of
the reports as well.
-/

namespace Chordboard

namespace Engine

variable {B n : Nat}

/-- One thing that happens to an engine. -/
inductive Input (n : Nat) where
  | tick (now : Nat) (down : Fin n → Bool)
  | control (m : ControlMessage)
  | apply (settings : Settings)

def step (reg : Registry B) (e : Engine B n) : Input n → Outcome B n
  | .tick now down => e.tick reg now down
  | .control m => (e.control reg m).1
  | .apply settings => (e.applySettings settings, [])

def run (reg : Registry B) (e : Engine B n) : List (Input n) → Outcome B n
  | [] => (e, [])
  | i :: rest =>
      let first := e.step reg i
      let later := run reg first.1 rest
      (later.1, first.2 ++ later.2)

@[simp] theorem run_nil (reg : Registry B) (e : Engine B n) : e.run reg [] = (e, []) := rfl

theorem run_cons (reg : Registry B) (e : Engine B n) (i : Input n) (rest : List (Input n)) :
    e.run reg (i :: rest) =
      (((e.step reg i).1.run reg rest).1,
        (e.step reg i).2 ++ ((e.step reg i).1.run reg rest).2) := rfl

/-- A run of two parts goes on from the state that the first part ends in. -/
theorem run_append (reg : Registry B) (e : Engine B n) (front back : List (Input n)) :
    e.run reg (front ++ back) =
      (((e.run reg front).1.run reg back).1,
        (e.run reg front).2 ++ ((e.run reg front).1.run reg back).2) := by
  induction front generalizing e with
  | nil => rfl
  | cons i front ih =>
      rw [List.cons_append, run_cons, ih, run_cons, List.append_assoc]

/-- What every step keeps, every run keeps. -/
theorem run_invariant {reg : Registry B} {p : Engine B n → Prop}
    (keeps : ∀ e i, p e → p (step reg e i).1) {e : Engine B n} (start : p e)
    (inputs : List (Input n)) : p (e.run reg inputs).1 := by
  induction inputs generalizing e with
  | nil => exact start
  | cons i rest ih => exact ih (keeps e i start)

/-- What every step keeps, of the reports so far and the engine, every run keeps. -/
theorem reports_invariant {reg : Registry B} {P : List Report → Engine B n → Prop}
    (keeps : ∀ rs e i, P rs e → P (rs ++ (step reg e i).2) (step reg e i).1)
    {rs : List Report} {e : Engine B n} (start : P rs e) (inputs : List (Input n)) :
    P (rs ++ (e.run reg inputs).2) (e.run reg inputs).1 := by
  induction inputs generalizing rs e with
  | nil => rwa [run_nil, List.append_nil]
  | cons i rest ih =>
      rw [run_cons, ← List.append_assoc]
      exact ih (keeps rs e i start)

end Engine

end Chordboard
