import Chordboard.Engine.Tick

/-!
# The polling loop

A running engine ticks, then waits until the scan period is over or a
control message arrives, whichever is first. It makes progress only when it
is polled. At most one message waits: a new one takes the place of one that
was not taken yet.

A wait never ends by its timer in the poll that began it, but a message
that waits is taken in that same poll. In a later poll the timer is looked
at first. A message that changes the mode is followed by a tick at once;
the message to exit ends the loop without one.
-/

namespace Chordboard

/-- Where the loop stands between polls. -/
inductive LoopPhase where
  /-- Not polled yet. -/
  | starting
  /-- Waiting for the deadline or for a message. -/
  | waiting (deadline : Nat)
  | finished
deriving DecidableEq, Repr

/-- A running engine and the control message that waits for it. -/
structure PollLoop (B n : Nat) where
  engine : Engine B n
  phase : LoopPhase
  message : Option ControlMessage
deriving DecidableEq

namespace PollLoop

variable {B n : Nat}

def ofEngine (e : Engine B n) : PollLoop B n := ⟨e, .starting, none⟩

/-- Leaves a message; an older one that still waits is lost. -/
def signal (l : PollLoop B n) (m : ControlMessage) : PollLoop B n :=
  { l with message := some m }

def isFinished (l : PollLoop B n) : Bool := l.phase == .finished

def tick (reg : Registry B) (now : Nat) (down : Fin n → Bool) (l : PollLoop B n) :
    PollLoop B n × List Report :=
  let ticked := l.engine.tick reg now down
  let phase := LoopPhase.waiting (now + ticked.1.settings.scan)
  ({ l with engine := ticked.1, phase }, ticked.2)

/-- Takes the message that waits, if there is one. -/
def takeMessage (reg : Registry B) (now : Nat) (down : Fin n → Bool) (l : PollLoop B n) :
    PollLoop B n × List Report :=
  match l.message with
  | none => (l, [])
  | some m =>
      let obeyed := l.engine.control reg m
      let l := { l with engine := obeyed.1.1, message := none }
      if obeyed.2 then ({ l with phase := .finished }, obeyed.1.2)
      else
        let ticked := l.tick reg now down
        (ticked.1, obeyed.1.2 ++ ticked.2)

/-- Ticks, then takes a message. -/
def resume (reg : Registry B) (now : Nat) (down : Fin n → Bool) (l : PollLoop B n) :
    PollLoop B n × List Report :=
  let ticked := l.tick reg now down
  let taken := ticked.1.takeMessage reg now down
  (taken.1, ticked.2 ++ taken.2)

/-- Polls the loop once at time `now`. -/
def poll (reg : Registry B) (now : Nat) (down : Fin n → Bool) (l : PollLoop B n) :
    PollLoop B n × List Report :=
  match l.phase with
  | .finished => (l, [])
  | .starting => l.resume reg now down
  | .waiting deadline =>
      if deadline ≤ now then l.resume reg now down else l.takeMessage reg now down

theorem poll_of_finished {reg : Registry B} {now : Nat} {down : Fin n → Bool}
    {l : PollLoop B n} (h : l.phase = .finished) : l.poll reg now down = (l, []) := by
  simp [poll, h]

end PollLoop

end Chordboard
