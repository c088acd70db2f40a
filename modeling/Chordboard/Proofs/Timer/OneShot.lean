import Chordboard.Timer

/-!
# One shot, and never early

Timers are started, stopped, moved ahead and asked in any order, at times that may also go back.
Whatever is done to a timer, three things hold of it. One that is off stays off until it is armed
again (`isDisabled_run`). One that has run out stays so until it is taken, started or stopped
(`isDone_run`). And one that was started counts from its start, less what it was moved ahead
since, for as long as it is not off (`state_run`).
-/

namespace Chordboard

namespace Timer

/-- What is done to a timer. -/
inductive Use where
  | start (now : Nat)
  | startWith (now delay : Nat)
  | disable
  | expire
  | setDelay (delay : Nat)
  | jumpAhead (amount : Nat)
  /-- Asks, and disables the timer if it has run out. -/
  | take (now : Nat)
  /-- Asks only. -/
  | ask (now : Nat)
deriving DecidableEq

def use (t : Timer) : Use → Timer
  | .start now => t.start now
  | .startWith now delay => t.startWith now delay
  | .disable => t.disable
  | .expire => t.expire
  | .setDelay delay => t.setDelay delay
  | .jumpAhead amount => t.jumpAhead amount
  | .take now => (t.take now).2
  | .ask _ => t

def run (t : Timer) (uses : List Use) : Timer :=
  uses.foldl use t

@[simp] theorem run_nil (t : Timer) : t.run [] = t := rfl

@[simp] theorem run_cons (t : Timer) (u : Use) (uses : List Use) :
    t.run (u :: uses) = (t.use u).run uses := rfl

theorem run_append (t : Timer) (front back : List Use) :
    t.run (front ++ back) = (t.run front).run back :=
  List.foldl_append

/-! ## Kinds of uses -/

namespace Use

/-- Makes the timer run, or run out. -/
def arms : Use → Bool
  | start _ => true
  | startWith .. => true
  | expire => true
  | _ => false

/-- Starts the timer, or stops it. -/
def resets : Use → Bool
  | start _ => true
  | startWith .. => true
  | disable => true
  | _ => false

/-- The start and the delay that the timer runs with from then on. -/
def started? (t : Timer) : Use → Option (Nat × Nat)
  | start now => some (now, t.delay)
  | startWith now delay => some (now, delay)
  | _ => none

/-- The timer has run out, and this takes it. -/
def takes (t : Timer) : Use → Bool
  | take now => (t.take now).1
  | _ => false

def jump : Use → Nat
  | jumpAhead amount => amount
  | _ => 0

end Use

/-- One of the uses takes the timer. -/
def taken (t : Timer) : List Use → Bool
  | [] => false
  | u :: uses => u.takes t || (t.use u).taken uses

/-- How far the timer is moved ahead in all. -/
def jumped : List Use → Nat
  | [] => 0
  | u :: uses => u.jump + jumped uses

variable {t : Timer} {u : Use} {uses : List Use} {now later start delay : Nat}

/-! ## Timers that are off -/

theorem isDisabled_use (off : t.isDisabled = true) (unarmed : u.arms = false) :
    (t.use u).isDisabled = true := by
  cases u with
  | start now => cases unarmed
  | startWith now delay => cases unarmed
  | expire => cases unarmed
  | disable => rfl
  | setDelay delay => exact off
  | jumpAhead amount =>
      obtain ⟨state, delay⟩ := t
      cases state with
      | disabled => rfl
      | expired => cases off
      | running start delay => cases off
  | take now =>
      show (t.take now).2.isDisabled = true
      rw [take_snd, isDone_eq_false_of_isDisabled off, if_neg Bool.false_ne_true]
      exact off
  | ask now => exact off

/-- What is off stays off until it is armed. -/
theorem isDisabled_run (off : t.isDisabled = true) (unarmed : ∀ u ∈ uses, u.arms = false) :
    (t.run uses).isDisabled = true := by
  induction uses generalizing t with
  | nil => exact off
  | cons u uses ih =>
      obtain ⟨hu, huses⟩ := List.forall_mem_cons.1 unarmed
      exact ih (isDisabled_use off hu) huses

/-- What was off and has run out was armed in between. -/
theorem exists_arms_of_isDone (off : t.isDisabled = true) (done : (t.run uses).isDone now = true) :
    ∃ u ∈ uses, u.arms = true := by
  rw [← List.any_eq_true]
  cases hany : uses.any Use.arms with
  | true => rfl
  | false =>
      have unarmed : ∀ u ∈ uses, u.arms = false := by simpa using hany
      rw [isDone_eq_false_of_isDisabled (isDisabled_run off unarmed)] at done
      cases done

theorem isDisabled_of_take (done : (t.take now).1 = true) : (t.take now).2.isDisabled = true := by
  rw [take_fst] at done
  rw [take_snd, if_pos done]
  rfl

/-! ## Timers that have run out -/

theorem isDone_mono (done : t.isDone now = true) (hle : now ≤ later) : t.isDone later = true := by
  obtain ⟨state, delay⟩ := t
  cases state with
  | disabled => exact done
  | expired => rfl
  | running start delay =>
      have hdelay : delay ≤ now - start := of_decide_eq_true done
      exact decide_eq_true (by omega)

theorem isDone_use (done : t.isDone now = true) (kept : u.resets = false)
    (untaken : u.takes t = false) : (t.use u).isDone now = true := by
  cases u with
  | start now => cases kept
  | startWith now delay => cases kept
  | disable => cases kept
  | expire => rfl
  | setDelay delay => exact done
  | jumpAhead amount =>
      obtain ⟨state, delay⟩ := t
      cases state with
      | disabled => exact done
      | expired => exact done
      | running start delay =>
          have hdelay : delay ≤ now - start := of_decide_eq_true done
          exact decide_eq_true (show delay ≤ now - (start - amount) by omega)
  | take asked =>
      have hasked : t.isDone asked = false := by
        rw [← take_fst]
        exact untaken
      show (t.take asked).2.isDone now = true
      rw [take_snd, hasked, if_neg Bool.false_ne_true]
      exact done
  | ask asked => exact done

/-- What has run out stays so until it is taken, started or stopped. -/
theorem isDone_run (done : t.isDone now = true) (kept : ∀ u ∈ uses, u.resets = false)
    (untaken : t.taken uses = false) : (t.run uses).isDone now = true := by
  induction uses generalizing t with
  | nil => exact done
  | cons u uses ih =>
      obtain ⟨hu, huses⟩ := List.forall_mem_cons.1 kept
      obtain ⟨hfirst, hrest⟩ := Bool.or_eq_false_iff.1 untaken
      exact ih (isDone_use done hu hfirst) huses hrest

/-! ## Timers that were started -/

theorem state_use (running : t.state = .running start delay) (unarmed : u.arms = false) :
    (t.use u).isDisabled = true ∨ (t.use u).state = .running (start - u.jump) delay := by
  cases u with
  | start now => cases unarmed
  | startWith now delay => cases unarmed
  | expire => cases unarmed
  | disable => exact Or.inl rfl
  | setDelay delay => exact Or.inr running
  | jumpAhead amount =>
      refine Or.inr ?_
      show (t.jumpAhead amount).state = _
      rw [Timer.jumpAhead, running]
      rfl
  | take now =>
      show (t.take now).2.isDisabled = true ∨ (t.take now).2.state = _
      rw [take_snd]
      split
      · exact Or.inl rfl
      · exact Or.inr running
  | ask now => exact Or.inr running

/-- A timer that was started is off, or runs from its start, less what it was moved ahead. -/
theorem state_run (running : t.state = .running start delay)
    (unarmed : ∀ u ∈ uses, u.arms = false) :
    (t.run uses).isDisabled = true ∨ (t.run uses).state = .running (start - jumped uses) delay := by
  induction uses generalizing t start with
  | nil => exact Or.inr running
  | cons u uses ih =>
      obtain ⟨hu, huses⟩ := List.forall_mem_cons.1 unarmed
      rw [run_cons]
      rcases state_use running hu with off | hrunning
      · exact Or.inl (isDisabled_run off huses)
      · rw [jumped, ← Nat.sub_sub]
        exact ih hrunning huses

theorem state_of_started? (h : u.started? t = some (start, delay)) :
    (t.use u).state = .running start delay := by
  cases u with
  | start now => cases h; rfl
  | startWith now delay => cases h; rfl
  | _ => cases h

/-- Before the delay is over, less what the timer was moved ahead, it has not run out. -/
theorem not_isDone_of_early (running : t.state = .running start delay) (hdelay : 0 < delay)
    (unarmed : ∀ u ∈ uses, u.arms = false) (early : now + jumped uses < start + delay) :
    (t.run uses).isDone now = false := by
  rcases state_run running unarmed with off | hrunning
  · exact isDone_eq_false_of_isDisabled off now
  · rw [isDone, hrunning]
    exact decide_eq_false (by omega)

/-! ## The law -/

/-- **One shot, and never early.** Take a new timer and anything that is done to it, at any times.
Between two takes that are answered with yes it is armed again. Once it has run out it is so at
all later times, if meanwhile it is only asked, or moved ahead, or given another usual delay, and
no take is answered with yes. And after a start it has not run out while the delay, less what it
was moved ahead since, is not over, unless it is armed again. -/
theorem one_shot_never_early (usual : Nat) (before : List Use) :
    (∀ (between : List Use) (first second : Nat),
        (((new usual).run before).take first).1 = true →
          (((new usual).run (before ++ .take first :: between)).take second).1 = true →
            ∃ u ∈ between, u.arms = true) ∧
      (∀ (between : List Use) (now later : Nat),
        ((new usual).run before).isDone now = true → (∀ u ∈ between, u.resets = false) →
          ((new usual).run before).taken between = false → now ≤ later →
            ((new usual).run (before ++ between)).isDone later = true) ∧
      ∀ (u : Use) (since : List Use) (start delay now : Nat),
        u.started? ((new usual).run before) = some (start, delay) → 0 < delay →
          (∀ u ∈ since, u.arms = false) → now + jumped since < start + delay →
            ((new usual).run (before ++ u :: since)).isDone now = false := by
  generalize hbefore : (new usual).run before = t
  refine ⟨?_, ?_, ?_⟩
  · intro between first second hfirst hsecond
    rw [run_append, hbefore, run_cons, take_fst] at hsecond
    exact exists_arms_of_isDone (isDisabled_of_take hfirst) hsecond
  · intro between now later done kept untaken hle
    rw [run_append, hbefore]
    exact isDone_mono (isDone_run done kept untaken) hle
  · intro u since start delay now started hdelay unarmed early
    rw [run_append, hbefore, run_cons]
    exact not_isDone_of_early (state_of_started? started) hdelay unarmed early

/-- A timer that is taken, forced and taken again; one that is asked at an earlier time before it
is found to have run out; and one that is moved ahead past the time zero. -/
theorem one_shot_never_early_forced :
    (((new 100).run [.start 1000]).take 1100).1 = true ∧
      (((new 100).run [.start 1000, .take 1100, .ask 1200, .expire, .setDelay 5]).take 0).1 = true ∧
      (∃ u ∈ [Use.ask 1200, .expire, .setDelay 5], u.arms = true) ∧
      ((new 100).run [.startWith 0 50, .take 20, .jumpAhead 10]).isDone 60 = true ∧
      ((new 100).run [.setDelay 10, .start 5, .jumpAhead 8, .take 6]).isDone 6 = false := by
  have hfirst : (((new 100).run [.start 1000]).take 1100).1 = true := by decide
  have hsecond :
      (((new 100).run [.start 1000, .take 1100, .ask 1200, .expire, .setDelay 5]).take 0).1 =
        true := by decide
  have armed := (one_shot_never_early 100 [.start 1000]).1 _ 1100 0 hfirst hsecond
  have stays := (one_shot_never_early 100 [.startWith 0 50]).2.1 [.take 20, .jumpAhead 10] 50 60
    (by decide) (by decide) (by decide) (by decide)
  have early := (one_shot_never_early 100 [.setDelay 10]).2.2 (.start 5) [.jumpAhead 8, .take 6]
    5 10 6 (by decide) (by decide) (by decide) (by decide)
  exact ⟨hfirst, hsecond, armed, stays, early⟩

end Timer

end Chordboard
