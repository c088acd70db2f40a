import Chordboard.Scanner.PinMatrix

/-!
# A test bench for pin matrices

A bench has pins that keep a record of what is done to them, and switches
between them. An input reads low while a switch on it is down whose output
is low. Pins can be broken: a broken output keeps its level, and a broken
input cannot be read. What is done to a broken pin is recorded like
anything else.
-/

namespace Chordboard

/-- Something done to the pins. -/
inductive PinCall where
  | drive (output : Nat) (level : Level)
  | pause (micros : Nat)
  | read (input : Nat)
deriving DecidableEq, Repr

/-- Pins on a test bench. -/
structure Bench where
  inputs : Nat
  /-- The switches that are down. -/
  down : List Nat
  /-- The outputs that are low. -/
  low : List Nat
  brokenInputs : List Nat
  brokenOutputs : List Nat
  /-- What was done, the latest first. -/
  calls : List PinCall

namespace Bench

def new (inputs outputs : Nat) : Bench where
  inputs := inputs
  down := []
  low := List.range outputs
  brokenInputs := []
  brokenOutputs := []
  calls := []

def move (b : Bench) (k : Nat) (down : Bool) : Bench :=
  { b with down := if down then k :: b.down.erase k else b.down.erase k }

def breakPins (b : Bench) (inputs outputs : List Nat) : Bench :=
  { b with brokenInputs := inputs, brokenOutputs := outputs }

def note (b : Bench) (c : PinCall) : Bench :=
  { b with calls := c :: b.calls }

/-- What was done since the last time that this was asked, in order. -/
def takeCalls (b : Bench) : List PinCall × Bench :=
  (b.calls.reverse, { b with calls := [] })

/-- Drives an output that is not broken. -/
def drive (b : Bench) (output : Nat) (level : Level) : Bench :=
  let b := b.note (.drive output level)
  if b.brokenOutputs.contains output then b
  else
    match level with
    | .high => { b with low := b.low.filter (· != output) }
    | .low => { b with low := output :: b.low.filter (· != output) }

/-- Some switch that is down connects the input to a low output. -/
def isLow (b : Bench) (input : Nat) : Bool :=
  b.low.any fun o => b.down.contains (o * b.inputs + input)

/-- Reads an input that is not broken. -/
def readLow? (b : Bench) (input : Nat) : Option Bool × Bench :=
  (if b.brokenInputs.contains input then none else some (b.isLow input), b.note (.read input))

end Bench

instance : PinBank Bench where
  drive := Bench.drive
  pause b micros := b.note (.pause micros)
  readLow? := Bench.readLow?

end Chordboard
