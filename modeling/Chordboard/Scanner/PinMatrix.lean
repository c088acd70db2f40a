import Chordboard.Scanner

/-!
# Scanning a matrix of pins

The switches of a matrix connect output pins to input pins. The inputs are
pulled up; while one output is low, exactly the inputs read low whose
switch to that output is down. Switch `k` joins input `k % inputs` and
output `k / inputs`.

A scan goes through the outputs one after the other. It drives the output
low, gives the inputs time to settle, reads every input, and drives the
output high again. An input that cannot be read counts as up.
-/

namespace Chordboard

inductive Level where
  | high
  | low
deriving DecidableEq, Repr

/-- Hardware with output pins to drive and input pins to read. -/
class PinBank (ρ : Type) where
  /-- Drives an output to a level; an output that fails keeps its level. -/
  drive : ρ → (output : Nat) → Level → ρ
  pause : ρ → (micros : Nat) → ρ
  /-- Reads whether an input is low; none if it cannot be read. -/
  readLow? : ρ → (input : Nat) → Option Bool × ρ

/-- A matrix of switches between the pins of `ρ`. -/
structure PinMatrix (ρ : Type) (inputs outputs : Nat) where
  pins : ρ
  /-- How long the inputs need to settle, in microseconds. -/
  settle : Nat
  /-- What the last scan saw, in the order of the switches. -/
  seen : List Bool

namespace PinMatrix

variable {ρ : Type} [PinBank ρ] {inputs outputs : Nat}

/-- Takes over the pins with every output high; no switch has been seen
down. -/
def new (inputs outputs : Nat) (pins : ρ) : PinMatrix ρ inputs outputs where
  pins := (List.range outputs).foldl (fun p o => PinBank.drive p o .high) pins
  settle := 10
  seen := List.replicate (inputs * outputs) false

def setSettle (m : PinMatrix ρ inputs outputs) (micros : Nat) : PinMatrix ρ inputs outputs :=
  { m with settle := micros }

def readInputs : List Nat → ρ → List Bool × ρ
  | [], pins => ([], pins)
  | i :: rest, pins =>
      let read := PinBank.readLow? pins i
      let later := readInputs rest read.2
      (read.1.getD false :: later.1, later.2)

/-- Reads the switches of one output. -/
def scanOutput (inputs settle output : Nat) (pins : ρ) : List Bool × ρ :=
  let pins := PinBank.pause (PinBank.drive pins output .low) settle
  let read := readInputs (List.range inputs) pins
  (read.1, PinBank.drive read.2 output .high)

def scanOutputs (inputs settle : Nat) : List Nat → ρ → List Bool × ρ
  | [], pins => ([], pins)
  | o :: rest, pins =>
      let first := scanOutput inputs settle o pins
      let later := scanOutputs inputs settle rest first.2
      (first.1 ++ later.1, later.2)

def scan (m : PinMatrix ρ inputs outputs) : Bool × PinMatrix ρ inputs outputs :=
  let scanned := scanOutputs inputs m.settle (List.range outputs) m.pins
  (m.seen != scanned.1, { m with pins := scanned.2, seen := scanned.1 })

/-- The last scan saw switch `k` down. -/
def isDown (m : PinMatrix ρ inputs outputs) (k : Nat) : Bool :=
  m.seen.getD k false

end PinMatrix

instance {ρ : Type} [PinBank ρ] {inputs outputs : Nat} :
    Scanner (PinMatrix ρ inputs outputs) where
  scan := PinMatrix.scan
  isDown := PinMatrix.isDown

end Chordboard
