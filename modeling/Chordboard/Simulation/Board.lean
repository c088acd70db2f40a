import Chordboard.Scanner.PinMatrix

/-!
# A simulated keyboard

The board wires switches between its input and output pins. Its wires have
a memory: a pin keeps the level it was last set to, and levels are not
worked out again from all outputs.

* An output that changes its level sets every input in turn: low if the
  output is low now and the switch between them is down, else high.
* A switch that goes down sets its input low if its output is low at that
  moment. A switch that goes up sets its input high.
* Setting an output to the level it has, or a switch to the state it has,
  does nothing.

Every pin has a number. The wires are told the number of the output that has
changed, and look up which of the outputs it is.
-/

namespace Chordboard

/-- A keyboard of simulated pins. A pin that was never set has no level. -/
structure Board (inputs outputs : Nat) where
  /-- The pin numbers of the outputs. -/
  numbers : Vector UInt8 outputs
  /-- The switches that are down, each as its input and its output. -/
  closed : List (Nat × Nat)
  inputLevels : Vector (Option Level) inputs
  outputLevels : Vector (Option Level) outputs
  /-- The number of delays that were waited for. -/
  delays : Nat

namespace Board

variable {inputs outputs : Nat}

/-- A board with its outputs on pins of these numbers. -/
def wired (inputs : Nat) (numbers : Vector UInt8 outputs) : Board inputs outputs where
  numbers := numbers
  closed := []
  inputLevels := Vector.replicate inputs none
  outputLevels := Vector.replicate outputs none
  delays := 0

/-- The outputs are on the first pins. -/
def new (inputs outputs : Nat) : Board inputs outputs :=
  wired inputs (Vector.ofFn fun o => UInt8.ofNat o)

def isClosed (b : Board inputs outputs) (input output : Nat) : Bool :=
  b.closed.contains (input, output)

def input? (b : Board inputs outputs) (i : Nat) : Option Level := b.inputLevels[i]?.join

def output? (b : Board inputs outputs) (o : Nat) : Option Level := b.outputLevels[o]?.join

def setInput (b : Board inputs outputs) (i : Nat) (level : Level) : Board inputs outputs :=
  { b with inputLevels := b.inputLevels.setIfInBounds i (some level) }

/-- The first output on a pin of this number. -/
def outputOf (b : Board inputs outputs) (number : UInt8) : Nat :=
  b.numbers.toList.idxOf number

/-- The level that an input gets when the output on a pin changes. -/
def inducedLevel (b : Board inputs outputs) (number : UInt8) (level : Level) (input : Nat) :
    Level :=
  if level = .low ∧ b.isClosed input (b.outputOf number) then .low else .high

def setOutput (b : Board inputs outputs) (o : Nat) (level : Level) : Board inputs outputs :=
  if b.output? o = some level then b
  else
    match b.numbers[o]? with
    | none => b
    | some number =>
        { b with
          outputLevels := b.outputLevels.setIfInBounds o (some level)
          inputLevels := Vector.ofFn fun i => some (b.inducedLevel number level i) }

def setSwitch (b : Board inputs outputs) (input output : Nat) (down : Bool) :
    Board inputs outputs :=
  if b.isClosed input output = down then b
  else if down then
    let b := { b with closed := (input, output) :: b.closed }
    if b.output? output = some .low then b.setInput input .low else b
  else
    { b with closed := b.closed.filter (· != (input, output)) }.setInput input .high

/-- The longest delay that the board's clock can wait for at once. -/
def longestDelay : Nat := 4294967

/-- Waits; a long time takes several delays. -/
def pause (b : Board inputs outputs) (micros : Nat) : Board inputs outputs :=
  { b with delays := b.delays + 1 + (micros - 1) / longestDelay }

/-- Reads an input; it is low only if it was set low. -/
def readLow? (b : Board inputs outputs) (i : Nat) : Option Bool × Board inputs outputs :=
  (some (b.input? i == some .low), b)

end Board

instance {inputs outputs : Nat} : PinBank (Board inputs outputs) where
  drive := Board.setOutput
  pause := Board.pause
  readLow? := Board.readLow?

/-- A keyboard whose pins are scanned. -/
abbrev ScannedBoard (inputs outputs : Nat) : Type :=
  PinMatrix (Board inputs outputs) inputs outputs

namespace ScannedBoard

variable {inputs outputs : Nat}

/-- The matrix of a board with its outputs on pins of these numbers. -/
def wired (inputs : Nat) (numbers : Vector UInt8 outputs) : ScannedBoard inputs outputs :=
  PinMatrix.new inputs outputs (Board.wired inputs numbers)

def new (inputs outputs : Nat) : ScannedBoard inputs outputs :=
  PinMatrix.new inputs outputs (Board.new inputs outputs)

def move (m : ScannedBoard inputs outputs) (k : Nat) (down : Bool) : ScannedBoard inputs outputs :=
  { m with pins := m.pins.setSwitch (k % inputs) (k / inputs) down }

end ScannedBoard

instance {inputs outputs : Nat} : Keyboard (ScannedBoard inputs outputs) where
  move := ScannedBoard.move

end Chordboard
