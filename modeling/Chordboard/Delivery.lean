import Chordboard.EventQueue

/-!
# Delivery to the transport

The engine puts its reports into the queue whenever it makes them, and the
transport takes the events out whenever it is ready. The traffic of a queue is
any interleaving of the two; a delivery is the queue in the middle of it,
together with the events that the transport has by then.
-/

namespace Chordboard

/-- One use of the queue: by the engine or by the transport. -/
inductive Traffic where
  | report (r : Report)
  | receive
deriving DecidableEq, Repr

def Traffic.report? : Traffic → Option Report
  | .report r => some r
  | .receive => none

/-- A queue and what was received from it, the oldest event first. -/
structure Delivery (capacity : Nat) where
  queue : EventQueue capacity
  received : List Event
deriving DecidableEq, Repr

namespace Delivery

variable {capacity : Nat}

/-- An empty queue from which nothing was received. -/
def idle (capacity : Nat) : Delivery capacity := ⟨.empty capacity, []⟩

/-- The transport takes the oldest event, if there is one. -/
def receive (d : Delivery capacity) : Delivery capacity :=
  match d.queue.receive? with
  | some (e, queue) => ⟨queue, d.received ++ [e]⟩
  | none => d

def step (d : Delivery capacity) : Traffic → Delivery capacity
  | .report r => { d with queue := d.queue.report r }
  | .receive => d.receive

def run (d : Delivery capacity) (traffic : List Traffic) : Delivery capacity :=
  traffic.foldl step d

@[simp] theorem run_nil (d : Delivery capacity) : d.run [] = d := rfl

@[simp] theorem run_cons (d : Delivery capacity) (use : Traffic) (traffic : List Traffic) :
    d.run (use :: traffic) = (d.step use).run traffic := rfl

end Delivery

end Chordboard
