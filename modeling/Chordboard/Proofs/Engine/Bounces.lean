import Chordboard.Proofs.Engine.ChordDelivery

/-!
# Bounces

A switch is not taken to have moved before its samples have said so for the whole
debounce delay. What carries this along a run is the debounce timer: one that runs
was started at an earlier tick, and from that tick on every sample has differed
from the slot and no mode was a gaming mode (`Watched`). Neither what happens to
the slot when its chord is sent, nor a gaming mode, nor new settings can make a
timer vouch for samples that it has not seen.
-/

namespace Chordboard

variable {B n : Nat} {reg : Registry B} {i : Fin n}

namespace Tick

/-- The ticks are in chorded modes, and see the switch in the same position. -/
def Steady (reg : Registry B) (i : Fin n) (down : Bool) (ts : List (Tick B n)) : Prop :=
  ∀ t ∈ ts, t.gaming reg = false ∧ t.down i = down

theorem Steady.concat {down : Bool} {ts : List (Tick B n)} (h : Steady reg i down ts)
    {t : Tick B n} (calm : t.gaming reg = false) (same : t.down i = down) :
    Steady reg i down (ts ++ [t]) := by
  intro s hs
  rcases List.mem_append.1 hs with hs | hs
  · exact h s hs
  · rw [List.mem_singleton.1 hs]
    exact ⟨calm, same⟩

/-- The debounce timer is off, or it has run since one of the ticks, with the delay in
force there, and the samples since then have all differed from the slot. -/
def Watched (reg : Registry B) (i : Fin n) (ts : List (Tick B n)) (s : Slot) : Prop :=
  s.timer.isDisabled = true ∨
    ∃ front first back, ts = front ++ first :: back ∧
      Steady reg i (!s.isDown) (first :: back) ∧
      s.timer.state = .running first.now first.before.settings.debounce

theorem Watched.congr {ts : List (Tick B n)} {s s' : Slot} (status : s'.status = s.status)
    (state : s'.timer.state = s.timer.state) (h : Watched reg i ts s) : Watched reg i ts s' := by
  unfold Watched Slot.isDown Timer.isDisabled at *
  rw [status, state]
  exact h

variable {t : Tick B n} {ts : List (Tick B n)}

/-- A sample that differs from a slot is its negation. -/
theorem down_eq_not {s : Slot} (differ : s.isDown ≠ t.down i) : t.down i = !s.isDown := by
  revert differ
  cases s.isDown <;> cases t.down i <;> decide

theorem watched_tick (tuned : Engine.Tuned t.before)
    (h : Watched reg i ts t.before.switches.slots[i]) :
    Watched reg i (ts ++ [t]) (t.after reg).switches.slots[i] := by
  cases mode : t.gaming reg with
  | true =>
      refine Or.inl ?_
      rw [(slot_after_of_gaming mode i).1]
      rfl
  | false =>
      unfold Watched
      rw [(slot_after mode i).1, (slot_after mode i).2]
      by_cases agree : t.before.switches.slots[i].isDown = t.down i
      · rw [Slot.step_of_agree t.now agree]
        exact Or.inl rfl
      have hdown := down_eq_not agree
      rcases h with off | ⟨front, first, back, rfl, steady, running⟩
      · -- The timer starts with this tick.
        obtain ⟨-, hsame, hstate⟩ := Slot.step_of_idle t.now agree off
        refine Or.inr ⟨ts, t, [], rfl, ?_, ?_⟩
        · rw [hsame]
          exact Steady.concat (fun s hs => absurd hs List.not_mem_nil) mode hdown
        · rw [hstate, tuned.debounce]
      · by_cases early : t.now - first.now < first.before.settings.debounce
        · obtain ⟨-, hsame, hstate⟩ := Slot.step_of_early agree running early
          refine Or.inr ⟨front, first, back ++ [t], ?_, ?_, hstate⟩
          · rw [List.append_assoc, List.cons_append]
          · rw [hsame]
            exact steady.concat mode hdown
        · obtain ⟨m, -, -, -, hoff⟩ := Slot.step_of_due agree running (Nat.not_lt.1 early)
          exact Or.inl hoff

/-- A slot goes up or down in a chorded mode only where its debounce timer, asked about a
sample that differs, has run for its whole delay. -/
theorem due_of_moved (calm : t.gaming reg = false)
    (h : Watched reg i ts t.before.switches.slots[i])
    (moved : (t.after reg).switches.slots[i].isDown ≠ t.before.switches.slots[i].isDown) :
    t.down i = (t.after reg).switches.slots[i].isDown ∧
      ∃ front first back, ts = front ++ first :: back ∧
        Steady reg i (t.after reg).switches.slots[i].isDown (first :: back) ∧
        first.before.settings.debounce ≤ t.now - first.now := by
  have hnew : (t.after reg).switches.slots[i].isDown = !t.before.switches.slots[i].isDown :=
    Bool.eq_not.2 moved
  rw [(slot_after calm i).2] at moved
  have differ : t.before.switches.slots[i].isDown ≠ t.down i := by
    intro agree
    rw [Slot.step_of_agree t.now agree] at moved
    exact moved rfl
  rw [hnew]
  refine ⟨down_eq_not differ, ?_⟩
  rcases h with off | ⟨front, first, back, hts, steady, running⟩
  · exact absurd (Slot.step_of_idle t.now differ off).2.1 moved
  · refine ⟨front, first, back, hts, steady, Nat.not_lt.1 fun early => ?_⟩
    exact moved (Slot.step_of_early differ running early).2.1

end Tick

namespace Engine

open Tick

/-- **Bounces are never accepted.** Wherever a tick in a chorded mode moves a switch, up
or down, there is an earlier tick from which on every tick, the present one
included, was in a chorded mode and saw the switch in its new position; and from
that tick to the present one at least the debounce delay in force there has
passed. Times may be in any order; one before another counts as no time after
it. -/
theorem steady_of_moved {settings : Settings} {inputs : List (Input n)}
    {front back : List (Tick B n)} {t : Tick B n}
    (split : (fresh B n settings).ticks reg inputs = front ++ t :: back)
    (calm : t.gaming reg = false)
    (moved : (t.after reg).switches.slots[i].isDown ≠ t.before.switches.slots[i].isDown) :
    ∃ earlier first between, front = earlier ++ first :: between ∧
      (∀ s ∈ first :: between ++ [t], s.gaming reg = false ∧
        s.down i = (t.after reg).switches.slots[i].isDown) ∧
      first.before.settings.debounce ≤ t.now - first.now := by
  have htuned : ∀ s ∈ front, Tuned s.before := by
    intro s hs
    have hmem : s ∈ (fresh B n settings).ticks reg inputs := by
      rw [split]
      exact List.mem_append_left _ hs
    exact tuned_of_mem_ticks hmem
  have hfresh : Watched reg i [] (fresh B n settings).switches.slots[i] := by
    refine Or.inl ?_
    simp [fresh, Switches.new, Slot.new]
  have hwatched : Watched reg i front t.before.switches.slots[i] :=
    slot_between (C := fun s => Tuned s.before) (Q := Watched reg i) []
      (fun _ _ _ status state h => h.congr status state) (fun _ _ => watched_tick) split htuned
      hfresh
  obtain ⟨hdown, earlier, first, between, hfront, steady, due⟩ := due_of_moved calm hwatched moved
  exact ⟨earlier, first, between, hfront, steady.concat calm hdown, due⟩

/-- Switch 0 bounces once on its way down. While its timer runs for the second time,
the debounce delay is changed, which this timer does not heed. -/
def bouncing : List (Input 1) :=
  [.tick 0 fun _ => true, .tick 5000 fun _ => false, .tick 6000 fun _ => true,
    .apply { Settings.usual with debounce := 50000 }, .tick 12000 fun _ => true,
    .tick 16000 fun _ => true]

def bouncingTicks : List (Tick 1 1) := (fresh 1 1 .usual).ticks bareRegistry bouncing

/-- The tick at which switch 0 is pressed. -/
def bouncingPress : Tick 1 1 :=
  bouncingTicks.getLast (by decide +kernel)

theorem steady_of_bouncing :
    bouncingPress.before.switches.slots[(0 : Fin 1)].isDown = false ∧
      (bouncingPress.after bareRegistry).switches.slots[(0 : Fin 1)].isDown = true ∧
      ∃ earlier first between, bouncingTicks.take 4 = earlier ++ first :: between ∧
        (∀ s ∈ first :: between ++ [bouncingPress], s.gaming bareRegistry = false ∧
          s.down 0 = (bouncingPress.after bareRegistry).switches.slots[(0 : Fin 1)].isDown) ∧
        first.before.settings.debounce ≤ bouncingPress.now - first.now := by
  have split : bouncingTicks = bouncingTicks.take 4 ++ bouncingPress :: [] := rfl
  have calm : bouncingPress.gaming bareRegistry = false := by decide +kernel
  have hup : bouncingPress.before.switches.slots[(0 : Fin 1)].isDown = false := by decide +kernel
  have hdown : (bouncingPress.after bareRegistry).switches.slots[(0 : Fin 1)].isDown = true := by
    decide +kernel
  have moved : (bouncingPress.after bareRegistry).switches.slots[(0 : Fin 1)].isDown ≠
      bouncingPress.before.switches.slots[(0 : Fin 1)].isDown := by
    rw [hup, hdown]
    exact nofun
  exact ⟨hup, hdown, steady_of_moved split calm moved⟩

end Engine

end Chordboard
