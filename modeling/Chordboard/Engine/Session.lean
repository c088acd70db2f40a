import Chordboard.Delivery
import Chordboard.Engine.Run

/-!
# Sessions

A session is an engine together with its queue and a transport. The engine gets its inputs and
puts what it reports into the queue, and every now and then the transport receives an event. What
there is to see of a session is what its steps report, what was received, the mode, and the
statuses of the switches.
-/

namespace Chordboard

/-- An engine, and the delivery of what it reports. -/
structure Session (B n capacity : Nat) where
  engine : Engine B n
  delivery : Delivery capacity
deriving DecidableEq

namespace Session

variable {B n capacity : Nat}

/-- One thing that happens in a session. -/
inductive Action (n : Nat) where
  | input (i : Engine.Input n)
  | receive

/-- What there is to see after a step. -/
structure Sight (n : Nat) where
  /-- What the step has reported. -/
  reports : List Report
  /-- All that was received so far, the oldest event first. -/
  received : List Event
  mode : Nat
  statuses : Vector SwitchStatus n
deriving DecidableEq

/-- A fresh engine, and nothing in the queue. -/
def opened (B n capacity : Nat) (settings : Settings) : Session B n capacity :=
  ⟨Engine.fresh B n settings, Delivery.idle capacity⟩

/-- The session after an action, and the reports of the engine. -/
def step (reg : Registry B) (s : Session B n capacity) :
    Action n → Session B n capacity × List Report
  | .input i =>
      let o := s.engine.step reg i
      (⟨o.1, s.delivery.run (o.2.map Traffic.report)⟩, o.2)
  | .receive => ({ s with delivery := s.delivery.receive }, [])

def sight (s : Session B n capacity) (reports : List Report) : Sight n where
  reports := reports
  received := s.delivery.received
  mode := s.engine.mode
  statuses := s.engine.switches.slots.map Slot.status

/-- What there is to see after each of the actions. -/
def watch (reg : Registry B) (s : Session B n capacity) : List (Action n) → List (Sight n)
  | [] => []
  | a :: rest =>
      let stepped := s.step reg a
      stepped.1.sight stepped.2 :: stepped.1.watch reg rest

end Session

end Chordboard
