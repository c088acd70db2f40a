/-!
# Scanners

A scanner is hardware that knows which switches are down. It is asked to
scan once per tick, and between two scans it keeps answering what the last
one saw.

A keyboard is a scanner whose switches can be moved. The plainest one is a
bank of `n` switches that are pressed and lifted by hand (`SwitchBank`).
-/

namespace Chordboard

/-- Hardware that samples switches. -/
class Scanner (σ : Type) where
  /-- Samples the switches: whether any of them changed, and the new state. -/
  scan : σ → Bool × σ
  isDown : σ → (i : Nat) → Bool

/-- A scanner whose switches can be moved. -/
class Keyboard (σ : Type) extends Scanner σ where
  move : σ → (k : Nat) → (down : Bool) → σ

namespace Keyboard

/-- One use of a keyboard. -/
inductive Use where
  | move (k : Nat) (down : Bool)
  | scan
deriving DecidableEq, Repr

variable {σ : Type} [Keyboard σ]

/-- What the scans answer, and the keyboard afterwards. -/
def perform (hardware : σ) : List Use → List Bool × σ
  | [] => ([], hardware)
  | .move k down :: rest => perform (move hardware k down) rest
  | .scan :: rest =>
      let scanned := Scanner.scan hardware
      let later := perform scanned.2 rest
      (scanned.1 :: later.1, later.2)

end Keyboard

/-- Switches that are moved by hand. -/
structure SwitchBank (n : Nat) where
  /-- The switches as they are. -/
  down : Vector Bool n
  /-- The switches as the last scan saw them. -/
  seen : Vector Bool n
deriving DecidableEq

namespace SwitchBank

variable {n : Nat}

def new (n : Nat) : SwitchBank n :=
  ⟨Vector.replicate n false, Vector.replicate n false⟩

def move (b : SwitchBank n) (i : Nat) (down : Bool) : SwitchBank n :=
  { b with down := b.down.setIfInBounds i down }

def isDown (b : SwitchBank n) (i : Nat) : Bool :=
  b.seen[i]?.getD false

/-- Looks at the switches. -/
def scan (b : SwitchBank n) : Bool × SwitchBank n :=
  (b.seen != b.down, { b with seen := b.down })

end SwitchBank

instance {n : Nat} : Keyboard (SwitchBank n) where
  scan := SwitchBank.scan
  isDown := SwitchBank.isDown
  move := SwitchBank.move

end Chordboard
