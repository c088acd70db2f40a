import Chordboard.Timer

/-!
# One switch

Every switch has a slot with its status and a debounce timer. A slot only
moves when the sample of its switch has said the same thing for the whole
debounce delay: the first sample that asks for a change starts the timer,
and any sample that does not ask for one stops it. A move that is accepted
is a `Transition`.

A switch that is released before its chord was sent is a tap. Its slot
stays pressed, so that it is sent after all.
-/

namespace Chordboard

/-- The status of a switch. -/
inductive SwitchStatus where
  | notPressed
  /-- Down, and not yet part of a chord that was sent. -/
  | pressed
  | alreadySent
  /-- Still down after it was sent, and free to join the next chord. -/
  | held
deriving DecidableEq, Repr

/-- An accepted move of a switch. -/
inductive Transition where
  | press
  | release
  /-- A release of a switch whose press was not sent yet. -/
  | tap
deriving DecidableEq, Repr

namespace Transition

def status : Transition → SwitchStatus
  | .press => .pressed
  | .release => .notPressed
  | .tap => .pressed

end Transition

/-- A switch and its debounce timer. -/
structure Slot where
  status : SwitchStatus
  timer : Timer
deriving DecidableEq, Repr

namespace Slot

def new (debounce : Nat) : Slot := ⟨.notPressed, Timer.new debounce⟩

def isDown (s : Slot) : Bool := s.status != .notPressed

/-- The switch goes into the next chord. -/
def joins (s : Slot) : Bool := s.status == .pressed || s.status == .held

/-! ## Chorded modes -/

/-- The move that a sample asks for. -/
def wanted (status : SwitchStatus) (down : Bool) : Option Transition :=
  match status, down with
  | .notPressed, true => some .press
  | .pressed, false => some .tap
  | .alreadySent, false => some .release
  | .held, false => some .release
  | _, _ => none

/-- Samples the switch: the slot after it, and the move if one was accepted. -/
def step (now : Nat) (down : Bool) (s : Slot) : Slot × Option Transition :=
  match wanted s.status down with
  | none => ({ s with timer := s.timer.disable }, none)
  | some t =>
      -- The first sample that wants the move only starts the timer.
      let asked := s.timer.debounce now
      if asked.1 then (⟨t.status, asked.2⟩, some t) else ({ s with timer := asked.2 }, none)

/-- A sent switch may join the next chord. -/
def promote (s : Slot) : Slot :=
  if s.status = .alreadySent then { s with status := .held } else s

/-- A pressed switch has been sent. -/
def markSent (s : Slot) : Slot :=
  if s.status = .pressed then { s with status := .alreadySent } else s

/-- A switch that is down may join the next chord, whatever it did before. -/
def reuse (s : Slot) : Slot :=
  if s.isDown then { s with status := .held } else s

/-! ## Gaming modes -/

/-- The status in a gaming mode, which follows the sample at once. -/
def gamingStatus (status : SwitchStatus) (down : Bool) : SwitchStatus :=
  if down then
    if status = .notPressed then .pressed else status
  else .notPressed

/-- Samples the switch without debouncing. -/
def stepGaming (down : Bool) (s : Slot) : Slot :=
  ⟨gamingStatus s.status down, s.timer.disable⟩

/-! ## First facts -/

/-- A move that is accepted is the one that the sample asked for. -/
theorem wanted_of_step {now : Nat} {down : Bool} {s : Slot} {t : Transition}
    (h : (s.step now down).2 = some t) : wanted s.status down = some t := by
  unfold step at h
  split at h
  · cases h
  · rename_i t' ht
    dsimp only at h
    split at h
    · cases h; exact ht
    · cases h

/-- Without an accepted move the status stays. -/
theorem status_step (now : Nat) (down : Bool) (s : Slot) :
    (s.step now down).1.status =
      match (s.step now down).2 with
      | some t => t.status
      | none => s.status := by
  unfold step
  split
  · rfl
  · dsimp only
    split <;> rfl

/-- A gaming mode sees a switch as down exactly when its sample is. -/
@[simp] theorem isDown_stepGaming (down : Bool) (s : Slot) :
    (s.stepGaming down).isDown = down := by
  cases down <;> cases h : s.status <;> simp [stepGaming, gamingStatus, isDown, h]

end Slot

end Chordboard
