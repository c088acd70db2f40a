import Mathlib.Data.List.DropRight
import Chordboard.Proofs.Engine.Ticks

/-!
# What a timer remembers of a run

The release timer and the held timer have one story. A tick may start them, by the moves that it
accepts, and then asks them; one that has run out is taken, and is off until it is started again.
So what such a timer is doing is told by the last tick that started it, if no tick has taken it
since (`StartedBy`).

`RunInvariant` lists what there is to show of a fact about the switches for a whole run to carry
it: only ticks and new settings touch them.
-/

namespace Chordboard

variable {B n : Nat} {reg : Registry B}

namespace Tick

/-! ## Looking back -/

/-- The last of the ticks that is of a kind. -/
def last? (kind : Tick B n → Bool) (ts : List (Tick B n)) : Option (Tick B n) :=
  (ts.filter kind).getLast?

/-- The ticks that came after the last one of a kind. -/
def since (kind : Tick B n → Bool) (ts : List (Tick B n)) : List (Tick B n) :=
  ts.rtakeWhile fun t => !kind t

variable {kind : Tick B n → Bool} {ts : List (Tick B n)} {t : Tick B n}

theorem last?_concat (kind : Tick B n → Bool) (ts : List (Tick B n)) (t : Tick B n) :
    last? kind (ts ++ [t]) = if kind t then some t else last? kind ts := by
  rw [last?, List.filter_append, List.getLast?_append]
  cases h : kind t <;> simp [last?, h]

theorem mem_of_last? {r : Tick B n} (h : last? kind ts = some r) : r ∈ ts ∧ kind r = true :=
  List.mem_filter.1 (List.mem_of_getLast? h)

theorem since_concat (kind : Tick B n → Bool) (ts : List (Tick B n)) (t : Tick B n) :
    since kind (ts ++ [t]) = if kind t then [] else since kind ts ++ [t] := by
  rw [since, List.rtakeWhile_concat]
  cases kind t <;> rfl

/-- What was last of its kind since some tick, was last of its kind. -/
theorem last?_of_since {ends : Tick B n → Bool} {r : Tick B n}
    (h : last? kind (since ends ts) = some r) : last? kind ts = some r := by
  obtain ⟨earlier, hts⟩ : since ends ts <:+ ts := List.rtakeWhile_suffix ..
  rw [← hts, last?, List.filter_append, List.getLast?_append]
  rw [last?] at h
  rw [h, Option.some_or]

end Tick

/-! ## One timer -/

namespace Timer

open Tick

/-- The timer was started by the tick `last`, with the delay in force there; without one it is
off. -/
def StartedBy (delay : Settings → Nat) (last : Option (Tick B n)) (timer : Timer) : Prop :=
  timer.state =
    match last with
    | none => .disabled
    | some r => .running r.now (delay r.before.settings)

variable {delay : Settings → Nat} {last : Option (Tick B n)} {timer started : Timer}

theorem StartedBy.isDone_iff (h : timer.StartedBy delay last) (now : Nat) :
    timer.isDone now = true ↔ ∃ r, last = some r ∧ delay r.before.settings ≤ now - r.now := by
  cases last with
  | none =>
      rw [isDone, h]
      simp
  | some r =>
      rw [isDone_of_running h]
      simp

theorem StartedBy.exists_of_on (h : timer.StartedBy delay last) (on : timer.isDisabled = false) :
    ∃ r, last = some r ∧ timer.state = .running r.now (delay r.before.settings) := by
  cases last with
  | none =>
      rw [isDisabled, h] at on
      cases on
  | some r => exact ⟨r, rfl, h⟩

/-- A tick may start a timer, before it asks it. -/
theorem StartedBy.concat {starts : Tick B n → Bool} {ts : List (Tick B n)} {t : Tick B n}
    (h : timer.StartedBy delay (last? starts ts)) (tuned : timer.delay = delay t.before.settings)
    (started_eq : started = if starts t then timer.start t.now else timer) :
    started.StartedBy delay (last? starts (ts ++ [t])) := by
  rw [last?_concat, started_eq]
  split
  · show TimerState.running t.now timer.delay = _
    rw [tuned]
  · exact h

/-- Once it was asked, a timer that had run out is off. -/
theorem StartedBy.take {starts takes : Tick B n → Bool} {ts : List (Tick B n)} {t : Tick B n}
    (h : started.StartedBy delay (last? starts (since takes ts ++ [t])))
    (taken : takes t = started.isDone t.now) :
    (started.take t.now).2.StartedBy delay (last? starts (since takes (ts ++ [t]))) := by
  rw [take_snd, since_concat, taken]
  split
  · rfl
  · exact h

end Timer

/-! ## The delays of the shared timers -/

namespace Switches

/-- The delays that the shared timers will use are those of the settings. -/
structure InForce (settings : Settings) (s : Switches n) : Prop where
  chord : s.grouping.chordTimer.delay = settings.chord
  release : s.grouping.releaseTimer.delay = settings.chord
  held : s.grouping.heldTimer.delay = settings.held

theorem InForce.after {t : Tick B n} (h : InForce t.before.settings t.before.switches) :
    InForce t.before.settings (t.after reg).switches := by
  have hdelays := (Tick.delays_after reg t).1
  exact ⟨hdelays.chord.trans h.chord, hdelays.release.trans h.release, hdelays.held.trans h.held⟩

end Switches

/-! ## Facts that a run carries -/

namespace Engine

open Switches (InForce)

/-- A fact about the ticks so far, the settings and the switches that every run of a kind of
ticks carries along. -/
structure RunInvariant (reg : Registry B) (C : List (Tick B n) → Prop)
    (P : List (Tick B n) → Settings → Switches n → Prop) : Prop where
  prefixClosed : ∀ ts ts', C (ts ++ ts') → C ts
  new : ∀ settings, P [] settings (Switches.new n settings)
  tick : ∀ ts t, C (ts ++ [t]) → InForce t.before.settings t.before.switches →
    P ts t.before.settings t.before.switches →
      P (ts ++ [t]) t.before.settings (t.after reg).switches
  apply : ∀ ts settings s settings', P ts settings s → P ts settings' (s.applySettings settings')

variable {C : List (Tick B n) → Prop} {P : List (Tick B n) → Settings → Switches n → Prop}

/-- Control messages leave settings and switches alone. -/
theorem RunInvariant.step (h : RunInvariant reg C P) (ts : List (Tick B n)) {e : Engine B n}
    (i : Input n) (kind : C (ts ++ (i.tick? e).toList)) (inForce : InForce e.settings e.switches)
    (before : P ts e.settings e.switches) :
    P (ts ++ (i.tick? e).toList) (e.step reg i).1.settings (e.step reg i).1.switches := by
  cases i with
  | tick now down =>
      have hsettings : (e.step reg (.tick now down)).1.settings = e.settings :=
        Tick.settings_after reg ⟨e, now, down⟩
      rw [hsettings]
      exact h.tick ts ⟨e, now, down⟩ kind inForce before
  | control m =>
      rw [Input.tick?, Option.toList_none, List.append_nil, Engine.step, (frame_control m).1,
        (frame_control m).2]
      exact before
  | apply settings =>
      rw [Input.tick?, Option.toList_none, List.append_nil]
      exact h.apply ts e.settings e.switches settings before

theorem inForce_runInvariant (reg : Registry B) :
    RunInvariant reg (fun _ : List (Tick B n) => True) fun _ => InForce where
  prefixClosed _ _ _ := trivial
  new _ := ⟨rfl, rfl, rfl⟩
  tick _ _ _ inForce _ := inForce.after
  apply _ _ _ _ _ := ⟨rfl, rfl, rfl⟩

theorem RunInvariant.run (h : RunInvariant reg C P) (settings : Settings) (inputs : List (Input n))
    (kind : C ((fresh B n settings).ticks reg inputs)) :
    P ((fresh B n settings).ticks reg inputs) ((fresh B n settings).run reg inputs).1.settings
      ((fresh B n settings).run reg inputs).1.switches := by
  have keeps : ∀ (ts : List (Tick B n)) (e : Engine B n) (i : Input n),
      (InForce e.settings e.switches ∧ (C ts → P ts e.settings e.switches)) →
        InForce (e.step reg i).1.settings (e.step reg i).1.switches ∧
          (C (ts ++ (i.tick? e).toList) →
            P (ts ++ (i.tick? e).toList) (e.step reg i).1.settings (e.step reg i).1.switches) := by
    rintro ts e i ⟨inForce, before⟩
    refine ⟨(inForce_runInvariant reg).step ts i trivial inForce inForce, fun kind => ?_⟩
    exact h.step ts i kind inForce (before (h.prefixClosed ts _ kind))
  have start : InForce (fresh B n settings).settings (fresh B n settings).switches ∧
      (C [] → P [] (fresh B n settings).settings (fresh B n settings).switches) :=
    ⟨(inForce_runInvariant reg).new settings, fun _ => h.new settings⟩
  exact (ticks_invariant (P := fun ts e =>
    InForce e.settings e.switches ∧ (C ts → P ts e.settings e.switches)) keeps start inputs).2 kind

/-- What a run carries, each of its ticks finds. -/
theorem RunInvariant.before (h : RunInvariant reg C P) {settings : Settings}
    {inputs : List (Input n)} {front back : List (Tick B n)} {t : Tick B n}
    (split : (fresh B n settings).ticks reg inputs = front ++ t :: back) (kind : C front) :
    P front t.before.settings t.before.switches := by
  obtain ⟨earlier, -, -, hfront, hbefore, -⟩ := exists_inputs_of_ticks split
  rw [← hfront, ← hbefore]
  exact h.run settings earlier (hfront.symm ▸ kind)

theorem inForce_before {settings : Settings} {inputs : List (Input n)}
    {front back : List (Tick B n)} {t : Tick B n}
    (split : (fresh B n settings).ticks reg inputs = front ++ t :: back) :
    InForce t.before.settings t.before.switches :=
  (inForce_runInvariant reg).before split trivial

/-- All of the ticks are in modes with chords. -/
def Calm (reg : Registry B) (ts : List (Tick B n)) : Prop := ∀ t ∈ ts, t.gaming reg = false

theorem Calm.prefixClosed (ts ts' : List (Tick B n)) (h : Calm reg (ts ++ ts')) : Calm reg ts :=
  fun t ht => h t (List.mem_append_left _ ht)

/-- Up to one of the ticks of a run, and there. -/
theorem Calm.cut {ts front back : List (Tick B n)} {t : Tick B n} (h : Calm reg ts)
    (split : ts = front ++ t :: back) : Calm reg front ∧ t.gaming reg = false := by
  subst split
  exact ⟨h.prefixClosed, h t (List.mem_append_right _ List.mem_cons_self)⟩

theorem Calm.last {ts : List (Tick B n)} {t : Tick B n} (h : Calm reg (ts ++ [t])) :
    t.gaming reg = false :=
  h t (List.mem_append_right _ List.mem_cons_self)

end Engine

end Chordboard
