import Chordboard.PollLoop.Run
import Chordboard.Proofs.Engine.ChordDelivery

/-!
# What becomes of an exit request

One message waits for the loop at most, and every poll of a loop that is not finished takes it
(`poll_of_running`). So an exit that is called for is obeyed by the next poll, unless another
call takes its place before that: then the loop obeys the later one and goes on, and nothing of
the exit is left (`exit_taken_iff`).
-/

namespace Chordboard

namespace PollLoop

variable {B n : Nat} {reg : Registry B} {l : PollLoop B n}

/-! ## One poll -/

/-- A message is taken, and only an exit ends the loop. -/
theorem takeMessage_of_running (now : Nat) (down : Fin n → Bool) (running : l.phase ≠ .finished) :
    (l.takeMessage reg now down).1.message = none ∧
      ((l.takeMessage reg now down).1.phase = .finished ↔ l.message = some .exit) := by
  unfold takeMessage
  cases hmessage : l.message with
  | none => simp [hmessage, running]
  | some m =>
      cases m with
      | exit => exact ⟨rfl, fun _ => rfl, fun _ => rfl⟩
      | setMode mode => exact ⟨rfl, nofun, nofun⟩

/-- **One poll.** A poll of a loop that is not finished takes the message that waits, whether or
not the scan period is over, and ends the loop exactly if that is an exit. -/
theorem poll_of_running (reg : Registry B) (now : Nat) (down : Fin n → Bool)
    (running : l.phase ≠ .finished) :
    (l.poll reg now down).1.message = none ∧
      ((l.poll reg now down).1.phase = .finished ↔ l.message = some .exit) := by
  -- A tick leaves the message alone, and the loop waits for the next one.
  have hresume : (l.resume reg now down).1.message = none ∧
      ((l.resume reg now down).1.phase = .finished ↔ l.message = some .exit) := by
    have hticked : (l.tick reg now down).1.phase ≠ .finished := nofun
    exact takeMessage_of_running now down hticked
  unfold poll
  cases hphase : l.phase with
  | finished => exact absurd hphase running
  | starting => exact hresume
  | waiting deadline =>
      dsimp only
      split
      · exact hresume
      · exact takeMessage_of_running now down running

theorem taken?_of_running (now : Nat) (down : Fin n → Bool) (running : l.phase ≠ .finished) :
    l.taken? reg now down = l.message := by
  unfold taken?
  rw [(poll_of_running reg now down running).1]
  rfl

/-! ## Runs -/

/-- A finished loop does nothing any more. -/
theorem run_of_finished (finished : l.phase = .finished) (uses : List (Use n)) :
    (l.run reg uses).1.phase = .finished ∧ (l.run reg uses).2 = [] := by
  induction uses generalizing l with
  | nil => exact ⟨finished, rfl⟩
  | cons u uses ih =>
      rw [run_cons]
      cases u with
      | call m => exact ih finished
      | poll now down =>
          rw [step, poll_of_finished finished]
          exact ih finished

/-- The loop is not finished, and no exit waits for it. -/
def GoesOn (l : PollLoop B n) : Prop :=
  l.phase ≠ .finished ∧ l.message ≠ some .exit

/-- Without a call for an exit the loop goes on. -/
theorem goesOn_step (h : l.GoesOn) {u : Use n} (other : u ≠ .call .exit) :
    (l.step reg u).1.GoesOn := by
  obtain ⟨running, hmessage⟩ := h
  cases u with
  | call m =>
      refine ⟨running, ?_⟩
      intro hexit
      exact other (congrArg Use.call (Option.some.inj hexit))
  | poll now down =>
      obtain ⟨hnone, hfinished⟩ := poll_of_running reg now down running
      refine ⟨fun finished => hmessage (hfinished.1 finished), ?_⟩
      show (l.poll reg now down).1.message ≠ some .exit
      rw [hnone]
      nofun

theorem goesOn_run (h : l.GoesOn) {uses : List (Use n)} (others : .call .exit ∉ uses) :
    (l.run reg uses).1.GoesOn := by
  induction uses generalizing l with
  | nil => exact h
  | cons u uses ih =>
      obtain ⟨hother, hrest⟩ := List.ne_and_not_mem_of_not_mem_cons others
      rw [run_cons]
      exact ih (goesOn_step h hother.symm) hrest

/-- Calls leave the loop where it is, and the last of them waits. -/
theorem run_calls (calls : List ControlMessage) (l : PollLoop B n) :
    (l.run reg (calls.map .call)).1 =
      { l with message := (calls.getLast?).or l.message } := by
  induction calls generalizing l with
  | nil => rfl
  | cons m calls ih =>
      rw [List.map_cons, run_cons, step, ih, List.getLast?_cons]
      cases calls.getLast? <;> rfl

/-- **What becomes of an exit request.** Let an exit be called for while the loop is running, and
let any number of calls follow before the next poll. That poll takes the last of all these calls,
which is the exit itself if no other follows, and the loop is finished exactly if the last call
is an exit. Then it stays so and reports nothing more. Otherwise the exit has come to nothing: the
loop goes on until an exit is called for again. -/
theorem exit_taken_iff {e : Engine B n} {before : List (Use n)}
    (running : ((ofEngine e).run reg before).1.phase ≠ .finished) (more : List ControlMessage)
    (now : Nat) (down : Fin n → Bool) :
    let calls := .exit :: more
    let called := ((ofEngine e).run reg (before ++ calls.map .call)).1
    let polled := (called.poll reg now down).1
    called.taken? reg now down = calls.getLast? ∧
      (polled.phase = .finished ↔ calls.getLast? = some .exit) ∧
      (polled.phase = .finished → ∀ later : List (Use n),
        (polled.run reg later).1.phase = .finished ∧ (polled.run reg later).2 = []) ∧
      (polled.phase ≠ .finished → ∀ later : List (Use n), .call .exit ∉ later →
        (polled.run reg later).1.phase ≠ .finished) := by
  intro calls called polled
  have hcalled : called = { ((ofEngine e).run reg before).1 with message := calls.getLast? } := by
    show ((ofEngine e).run reg (before ++ calls.map .call)).1 = _
    rw [run_append, run_calls, List.getLast?_cons]
    rfl
  have hrunning : called.phase ≠ .finished := by
    rw [hcalled]
    exact running
  have hmessage : called.message = calls.getLast? := by rw [hcalled]
  obtain ⟨hnone, hfinished⟩ := poll_of_running reg now down hrunning
  rw [hmessage] at hfinished
  refine ⟨?_, hfinished, run_of_finished, ?_⟩
  · rw [taken?_of_running now down hrunning, hmessage]
  · intro hpolled later others
    refine (goesOn_run ⟨hpolled, ?_⟩ others).1
    rw [hnone]
    nofun

/-- A loop that has been polled, and then was told to go to mode 0 and to exit. -/
def exitCalled : PollLoop 1 1 :=
  ((ofEngine (Engine.fresh 1 1 .usual)).run Engine.bareRegistry
    [.poll 0 fun _ => false, .call (.setMode 0), .call .exit]).1

/-- The exit has taken the place of the message before it, and the next poll obeys it. -/
theorem exit_taken_after_setMode :
    ((ofEngine (Engine.fresh 1 1 .usual)).run Engine.bareRegistry
        [.poll 0 fun _ => false, .call (.setMode 0)]).1.phase = .waiting 1000 ∧
      exitCalled.taken? Engine.bareRegistry 500 (fun _ => false) = some .exit ∧
      (exitCalled.poll Engine.bareRegistry 500 fun _ => false).1.phase = .finished := by
  have waiting : ((ofEngine (Engine.fresh 1 1 .usual)).run Engine.bareRegistry
      [.poll 0 fun _ => false, .call (.setMode 0)]).1.phase = .waiting 1000 := by decide +kernel
  have running : ((ofEngine (Engine.fresh 1 1 .usual)).run Engine.bareRegistry
      [.poll 0 fun _ => false, .call (.setMode 0)]).1.phase ≠ .finished := by
    rw [waiting]
    nofun
  obtain ⟨htaken, hfinished, -, -⟩ := exit_taken_iff running [] 500 fun _ => false
  exact ⟨waiting, htaken, hfinished.2 rfl⟩

/-- The loop is told to go to mode 0 after the exit. -/
def exitReplaced : PollLoop 1 1 := exitCalled.signal (.setMode 0)

/-- An exit that is lost: the message that is taken next was left after it, and the loop is
still running two scan periods later. -/
theorem exit_replaced_by_setMode :
    Engine.start Engine.bareRegistry 1 .usual = .ok (Engine.fresh 1 1 .usual) ∧
      exitCalled.phase ≠ .finished ∧ exitCalled.message = some .exit ∧
      exitReplaced.taken? Engine.bareRegistry 500 (fun _ => false) = some (.setMode 0) ∧
      (exitReplaced.run Engine.bareRegistry [.poll 500 fun _ => false, .poll 1500 fun _ => false,
        .poll 2500 fun _ => false]).1.phase = .waiting 3500 := by
  refine ⟨rfl, ?_⟩
  decide +kernel

end PollLoop

end Chordboard
