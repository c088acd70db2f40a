import Chordboard.Key

/-!
# Events and their queue

An event tells the transport what to do with the keys of the host. Events
wait in a queue of limited capacity until the transport receives them.

If the transport has fallen behind, so that there is no room for an event,
everything that waits is dropped and a single release takes its place: the
host is left with no key stuck, at the price of what was lost.
-/

namespace Chordboard

/-- What the transport is told to do. -/
inductive Event where
  /-- Tap each key in turn, with `mods` held down as well as its own. -/
  | sequence (keys : List Key) (mods : UInt8)
  /-- Keep the keys and modifiers down until the next event. -/
  | hold (keys : List Key) (mods : UInt8)
  /-- Release everything. -/
  | release
deriving DecidableEq, Repr

/-- What the engine hands to the queue. -/
inductive Report where
  /-- One more event. -/
  | event (e : Event)
  /-- A release that makes everything still waiting obsolete. -/
  | releaseAll
deriving DecidableEq, Repr

namespace Report

def toEvent : Report → Event
  | .event e => e
  | .releaseAll => .release

end Report

/-- The smallest capacity for which the engine is made. -/
def minQueueCapacity : Nat := 4

/-- The events that wait for the transport, the oldest first. -/
structure EventQueue (capacity : Nat) where
  waiting : List Event
deriving DecidableEq, Repr

namespace EventQueue

variable {capacity : Nat}

def empty (capacity : Nat) : EventQueue capacity := ⟨[]⟩

def clear (_ : EventQueue capacity) : EventQueue capacity := ⟨[]⟩

/-- Appends an event if there is room. -/
def send? (q : EventQueue capacity) (e : Event) : Option (EventQueue capacity) :=
  if q.waiting.length < capacity then some ⟨q.waiting ++ [e]⟩ else none

/-- Queues an event; without room a release takes the place of everything. -/
def put (q : EventQueue capacity) (e : Event) : EventQueue capacity :=
  (q.send? e).getD ((q.clear.send? .release).getD q.clear)

def report (q : EventQueue capacity) : Report → EventQueue capacity
  | .event e => q.put e
  | .releaseAll => q.clear.put .release

def reportAll (q : EventQueue capacity) (rs : List Report) : EventQueue capacity :=
  rs.foldl report q

/-- The oldest event, and the queue without it. -/
def receive? (q : EventQueue capacity) : Option (Event × EventQueue capacity) :=
  match q.waiting with
  | [] => none
  | e :: rest => some (e, ⟨rest⟩)

/-- Everything that waits, and the queue without it. -/
def receiveAll (q : EventQueue capacity) : List Event × EventQueue capacity :=
  (q.waiting, q.clear)

theorem waiting_put_of_lt {q : EventQueue capacity} (e : Event)
    (h : q.waiting.length < capacity) : (q.put e).waiting = q.waiting ++ [e] := by
  simp [put, send?, h]

theorem waiting_put_of_le {q : EventQueue capacity} (e : Event) (hpos : 0 < capacity)
    (h : capacity ≤ q.waiting.length) : (q.put e).waiting = [.release] := by
  simp [put, send?, clear, Nat.not_lt.2 h, hpos]

theorem waiting_report_releaseAll (q : EventQueue capacity) (hpos : 0 < capacity) :
    (q.report .releaseAll).waiting = [.release] := by
  simp [report, put, send?, clear, hpos]

@[simp] theorem reportAll_nil (q : EventQueue capacity) : q.reportAll [] = q := rfl

@[simp] theorem reportAll_cons (q : EventQueue capacity) (r : Report) (rs : List Report) :
    q.reportAll (r :: rs) = (q.report r).reportAll rs := rfl

end EventQueue

end Chordboard
