/-!
# One-shot timers

A timer counts down against a clock that it never reads itself: every
question brings the present time `now`, so that all timers asked within one
tick agree. Times and delays are natural numbers of ticks, and a time
before the start counts as the start.

A timer that has run out says so once: `take` answers `true` and disables
it. `expire` makes a timer run out at once, whatever it was doing.
-/

namespace Chordboard

/-- What a timer is doing. -/
inductive TimerState where
  | disabled
  | running (start delay : Nat)
  | expired
deriving DecidableEq, Repr

/-- A one-shot timer and the delay that its next plain start will use. -/
structure Timer where
  state : TimerState
  delay : Nat
deriving DecidableEq, Repr

namespace Timer

/-! ## Starting and stopping -/

def new (delay : Nat) : Timer := ⟨.disabled, delay⟩

/-- Starts, or starts again, with a delay of its own. -/
def startWith (t : Timer) (now delay : Nat) : Timer :=
  { t with state := .running now delay }

/-- Starts, or starts again, with the timer's usual delay. -/
def start (t : Timer) (now : Nat) : Timer :=
  t.startWith now t.delay

def disable (t : Timer) : Timer :=
  { t with state := .disabled }

/-- Runs out at once, whatever the timer was doing. -/
def expire (t : Timer) : Timer :=
  { t with state := .expired }

/-- Changes the usual delay; a timer that is running keeps its own. -/
def setDelay (t : Timer) (delay : Nat) : Timer :=
  { t with delay }

/-- Moves the start of a running timer back, at most to time zero. -/
def jumpAhead (t : Timer) (amount : Nat) : Timer :=
  match t.state with
  | .running start delay => { t with state := .running (start - amount) delay }
  | _ => t

/-! ## Questions -/

/-- Neither running nor run out. -/
def isDisabled (t : Timer) : Bool :=
  t.state == .disabled

/-- Has run out by `now`, and nobody has taken that yet. -/
def isDone (t : Timer) (now : Nat) : Bool :=
  match t.state with
  | .disabled => false
  | .expired => true
  | .running start delay => delay ≤ now - start

/-- Was started and has not run out by `now`. -/
def isRunning (t : Timer) (now : Nat) : Bool :=
  match t.state with
  | .running .. => !t.isDone now
  | _ => false

/-- The time since the start of a running timer, else nothing. -/
def elapsed (t : Timer) (now : Nat) : Nat :=
  match t.state with
  | .running start _ => now - start
  | _ => 0

/-- Answers `true` once when the timer has run out, which disables it. -/
def take (t : Timer) (now : Nat) : Bool × Timer :=
  if t.isDone now then (true, t.disable) else (false, t)

/-- Asks whether something has lasted for the whole delay: the first question
starts the timer, and a later one is answered by `take`. -/
def debounce (t : Timer) (now : Nat) : Bool × Timer :=
  if t.isDisabled then (false, t.start now) else t.take now

/-! ## First facts -/

@[simp] theorem isDisabled_new (delay : Nat) : (new delay).isDisabled = true := rfl

@[simp] theorem isDisabled_disable (t : Timer) : t.disable.isDisabled = true := rfl

@[simp] theorem isDisabled_startWith (t : Timer) (now delay : Nat) :
    (t.startWith now delay).isDisabled = false := rfl

@[simp] theorem isDisabled_start (t : Timer) (now : Nat) :
    (t.start now).isDisabled = false := rfl

@[simp] theorem isDisabled_expire (t : Timer) : t.expire.isDisabled = false := rfl

@[simp] theorem isDisabled_setDelay (t : Timer) (delay : Nat) :
    (t.setDelay delay).isDisabled = t.isDisabled := rfl

@[simp] theorem isDone_disable (t : Timer) (now : Nat) : t.disable.isDone now = false := rfl

@[simp] theorem isDone_expire (t : Timer) (now : Nat) : t.expire.isDone now = true := rfl

@[simp] theorem isDone_setDelay (t : Timer) (delay now : Nat) :
    (t.setDelay delay).isDone now = t.isDone now := rfl

theorem isDone_startWith {t : Timer} {start delay now : Nat} :
    (t.startWith start delay).isDone now = true ↔ delay ≤ now - start := by
  simp [startWith, isDone]

theorem isDone_start {t : Timer} {start now : Nat} :
    (t.start start).isDone now = true ↔ t.delay ≤ now - start :=
  isDone_startWith

@[simp] theorem take_fst (t : Timer) (now : Nat) : (t.take now).1 = t.isDone now := by
  unfold take
  split <;> simp_all

theorem take_snd (t : Timer) (now : Nat) :
    (t.take now).2 = if t.isDone now then t.disable else t := by
  unfold take
  split <;> rfl

theorem isDone_eq_false_of_isDisabled {t : Timer} (h : t.isDisabled = true) (now : Nat) :
    t.isDone now = false := by
  cases ht : t.state <;> simp_all [isDisabled, isDone]

end Timer

end Chordboard
