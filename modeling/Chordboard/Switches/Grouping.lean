import Chordboard.Switches.Slot

/-!
# Grouping transitions

The switches share three timers and a short memory, which turn single
transitions into chords and batches of releases:

* every press starts the chord timer, and a tap makes it run out at once;
* every release and every tap starts the release timer;
* every transition starts the held timer;
* a press that directly follows the release of the same switch is a double
  tap.

The transitions of one tick are taken in the order of the switches.
-/

namespace Chordboard

/-- The timers that all `n` switches share, and the memory of double taps. -/
structure Grouping (n : Nat) where
  /-- Presses within this delay of each other form one chord. -/
  chordTimer : Timer
  /-- Releases within this delay of each other form one batch. -/
  releaseTimer : Timer
  /-- Sent switches that stay down this long may join the next chord. -/
  heldTimer : Timer
  /-- The switch of the last transition, if that was a release. -/
  lastReleased : Option (Fin n)
  doubleTapped : Bool
deriving DecidableEq

namespace Grouping

variable {n : Nat}

/-- Nothing has happened yet. Releases are batched by the chord delay. -/
def new (n chord held : Nat) : Grouping n where
  chordTimer := Timer.new chord
  releaseTimer := Timer.new chord
  heldTimer := Timer.new held
  lastReleased := none
  doubleTapped := false

/-- Changes the delays that the next starts will use. -/
def setDelays (g : Grouping n) (chord held : Nat) : Grouping n :=
  { g with
    chordTimer := g.chordTimer.setDelay chord
    releaseTimer := g.releaseTimer.setDelay chord
    heldTimer := g.heldTimer.setDelay held }

def press (g : Grouping n) (now : Nat) (i : Fin n) : Grouping n :=
  { g with
    chordTimer := g.chordTimer.start now
    heldTimer := g.heldTimer.start now
    doubleTapped := g.doubleTapped || g.lastReleased == some i
    lastReleased := none }

def release (g : Grouping n) (now : Nat) (i : Fin n) : Grouping n :=
  { g with
    releaseTimer := g.releaseTimer.start now
    heldTimer := g.heldTimer.start now
    lastReleased := some i }

/-- Makes the chord of the pressed switches due. -/
def sendNow (g : Grouping n) : Grouping n :=
  { g with chordTimer := g.chordTimer.expire }

def accept (now : Nat) (g : Grouping n) (m : Fin n × Transition) : Grouping n :=
  match m.2 with
  | .press => g.press now m.1
  | .release => g.release now m.1
  | .tap => (g.release now m.1).sendNow

/-- Takes note of the transitions of one tick. -/
def acceptAll (now : Nat) (g : Grouping n) (ms : List (Fin n × Transition)) : Grouping n :=
  ms.foldl (accept now) g

@[simp] theorem acceptAll_nil (now : Nat) (g : Grouping n) : g.acceptAll now [] = g := rfl

@[simp] theorem acceptAll_cons (now : Nat) (g : Grouping n) (m : Fin n × Transition)
    (ms : List (Fin n × Transition)) :
    g.acceptAll now (m :: ms) = (accept now g m).acceptAll now ms := rfl

end Grouping

end Chordboard
