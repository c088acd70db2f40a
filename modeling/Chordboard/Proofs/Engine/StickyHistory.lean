import Chordboard.Proofs.Engine.StickyMods
import Mathlib.Data.List.DropRight

/-!
# Where the sticky modifiers come from

Nothing but an order changes the sticky modifiers: it toggles some of them, or it resets them
all. So they are the modifiers that were toggled an odd number of times since the last reset
(`toggledSince`).

A gaming mode begins with a reset and no chord gives an order there, so nothing is sticky in it.
And since a release lifts what is sticky as well, one is only reported where nothing is.
-/

namespace Chordboard

variable {B n : Nat} {reg : Registry B}

/-! ## What an order does to the sticky modifiers -/

namespace Command

/-- After the order nothing is sticky. To go to a mode that does not exist changes nothing. -/
def resets (reg : Registry B) : Command → Bool
  | .cycle _ => false
  | .releaseAll => true
  | .toggleSticky _ => false
  | .setMode mode => reg.isValidMode mode

def toggled? : Command → Option UInt8
  | .cycle _ => none
  | .releaseAll => none
  | .toggleSticky mods => some mods
  | .setMode _ => none

/-- What is sticky after orders that began with nothing sticky: the modifiers toggled an odd
number of times since the last reset. -/
def toggledSince (reg : Registry B) (orders : List Command) : UInt8 :=
  ((orders.rtakeWhile fun c => !c.resets reg).filterMap toggled?).foldl (· ^^^ ·) 0

theorem toggledSince_concat (orders : List Command) (c : Command) :
    toggledSince reg (orders ++ [c]) =
      if c.resets reg then 0 else toggledSince reg orders ^^^ c.toggled?.getD 0 := by
  unfold toggledSince
  by_cases reset : c.resets reg = true
  · rw [List.rtakeWhile_concat_neg _ _ _ (by simp [reset]), if_pos reset]
    rfl
  · rw [List.rtakeWhile_concat_pos _ _ _ (by simp [reset]), if_neg reset, List.filterMap_append,
      List.foldl_append]
    cases h : c.toggled? with
    | none => simp [h]
    | some mods => simp [h]

/-- The modifiers to toggle are the code of the second key. -/
theorem ofKeys?_eq_toggleSticky_iff {keys : List Key} {mods : UInt8} :
    ofKeys? keys = some (.toggleSticky mods) ↔
      ∃ first second rest, keys = first :: second :: rest ∧ first.code = toggleStickyCode ∧
        second.code = mods := by
  constructor
  · intro h
    cases keys with
    | nil => cases h
    | cons first rest =>
        have hcode : first.code = toggleStickyCode ∧
            (rest.head?.map Key.code).map toggleSticky = some (.toggleSticky mods) := by
          rw [ofKeys?] at h
          unfold ofCode? at h
          grind
        obtain ⟨code, hargument⟩ := hcode
        obtain ⟨_, hsecond, hmods⟩ := Option.map_eq_some_iff.1 hargument
        obtain ⟨second, hhead, rfl⟩ := Option.map_eq_some_iff.1 hsecond
        obtain ⟨rest, rfl⟩ := List.head?_eq_some_iff.1 hhead
        exact ⟨first, second, rest, rfl, code, toggleSticky.inj hmods⟩
  · rintro ⟨first, second, rest, rfl, code, rfl⟩
    rw [ofKeys?, code]
    rfl

end Command

namespace Engine

/-! ## One order -/

/-- What at most one order leaves of an engine, as far as the sticky modifiers go. -/
structure Booked (reg : Registry B) (e : Engine B n) (order? : Option Command)
    (o : Outcome B n) : Prop where
  sticky : o.1.sticky =
    match order? with
    | none => e.sticky
    | some c => if c.resets reg then 0 else e.sticky ^^^ c.toggled?.getD 0
  mode : o.1.mode = e.mode ∨ o.1.sticky = 0
  released : ∀ r ∈ o.2, r.toEvent = .release → o.1.sticky = 0

variable {e : Engine B n}

theorem releaseEvent_eq_release_iff : e.releaseEvent = .release ↔ e.sticky = 0 := by
  unfold releaseEvent
  split
  · rename_i h
    exact iff_of_true rfl h
  · rename_i h
    exact iff_of_false nofun h

/-- Where no order is given, nothing sticky changes, and no release is reported. -/
theorem booked_none {o : Outcome B n} (sticky : o.1.sticky = e.sticky) (mode : o.1.mode = e.mode)
    (reports : ∀ r ∈ o.2, r.toEvent ≠ .release) : Booked reg e none o where
  sticky := sticky
  mode := Or.inl mode
  released := fun r hr h => absurd h (reports r hr)

theorem booked_silent {e' : Engine B n} (sticky : e'.sticky = e.sticky) (mode : e'.mode = e.mode) :
    Booked reg e none (e', []) :=
  booked_none sticky mode fun _ hr => absurd hr List.not_mem_nil

theorem booked_event {e' : Engine B n} {event : Event} (sticky : e'.sticky = e.sticky)
    (mode : e'.mode = e.mode) (other : event ≠ .release) :
    Booked reg e none (e', [.event event]) := by
  refine booked_none sticky mode ?_
  intro r hr
  rw [List.mem_singleton.1 hr]
  exact other

theorem sendWord?_keeps {c : Chord B} {o : Outcome B n} (h : e.sendWord? reg c = some o) :
    o.1.sticky = e.sticky ∧ o.1.mode = e.mode ∧ ∀ r ∈ o.2, r.toEvent ≠ .release := by
  obtain ⟨found, -, rfl⟩ := sendWord?_eq_some_iff.1 h
  refine ⟨rfl, rfl, ?_⟩
  intro r hr
  rw [List.mem_singleton.1 hr]
  exact nofun

theorem booked_setMode (mode : Nat) :
    Booked reg e (some (.setMode mode)) (e.setMode reg mode) := by
  unfold setMode
  by_cases valid : reg.isValidMode mode = true
  · rw [if_pos valid]
    constructor
    · show (0 : UInt8) = if reg.isValidMode mode then 0 else _
      rw [if_pos valid]
    · exact Or.inr rfl
    · intro _ _ _
      rfl
  · rw [if_neg valid]
    constructor
    · show e.sticky = if reg.isValidMode mode then 0 else e.sticky ^^^ 0
      rw [if_neg valid, UInt8.xor_zero]
    · exact Or.inl rfl
    · intro r hr
      cases hr

theorem booked_cycleLastWord (what : Cycle) :
    Booked reg e (some (.cycle what)) (e.cycleLastWord reg what) := by
  have hsticky : e.sticky = e.sticky ^^^ 0 := UInt8.xor_zero.symm
  unfold cycleLastWord
  cases e.lastWord with
  | none => exact ⟨hsticky, Or.inl rfl, nofun⟩
  | some last =>
      dsimp only
      cases found : e.sendWord? reg (cycleChord reg what last.chord) with
      | none =>
          refine ⟨hsticky, Or.inl rfl, ?_⟩
          intro r hr h
          rw [List.mem_singleton.1 hr] at h
          cases h
      | some sent =>
          obtain ⟨same, mode, reports⟩ := sendWord?_keeps found
          refine ⟨same.trans hsticky, Or.inl mode, ?_⟩
          intro r hr h
          rcases List.mem_cons.1 hr with rfl | hr
          · cases h
          · exact absurd h (reports r hr)

theorem booked_runCommand (c : Command) : Booked reg e (some c) (e.runCommand reg c) := by
  cases c with
  | cycle what => exact booked_cycleLastWord what
  | releaseAll => exact ⟨rfl, Or.inr rfl, fun _ _ _ => rfl⟩
  | toggleSticky mods =>
      refine ⟨rfl, Or.inl rfl, ?_⟩
      intro r hr h
      rw [List.mem_singleton.1 hr] at h
      exact releaseEvent_eq_release_iff.1 h
  | setMode mode => exact booked_setMode mode

theorem Dispatched.booked {c : Chord B} {o : Outcome B n} (d : Dispatched reg e c o) :
    Booked reg e (c.order? reg) o := by
  cases d with
  | blank empty =>
      rw [Chord.order?, if_pos empty]
      exact booked_silent rfl rfl
  | noOrder some found order =>
      rw [Chord.order?, some, found, Option.bind_some, order]
      exact booked_silent rfl rfl
  | @order keys command some found order =>
      have horder : c.order? reg = .some command := by
        rw [Chord.order?, some, found, Option.bind_some, order]
        rfl
      rw [horder]
      exact booked_runCommand command
  | mods _ noCommand _ =>
      rw [Chord.order?_of_noCommand noCommand]
      exact booked_event rfl rfl fun h => Event.noConfusion h
  | keys noCommand _ _ =>
      rw [Chord.order?_of_noCommand noCommand]
      exact booked_event rfl rfl fun h => Event.noConfusion h
  | word noCommand _ _ found =>
      rw [Chord.order?_of_noCommand noCommand]
      obtain ⟨sticky, mode, reports⟩ := sendWord?_keeps found
      exact booked_none sticky mode reports
  | unmapped noCommand =>
      rw [Chord.order?_of_noCommand noCommand]
      exact booked_silent rfl rfl

/-! ## Ticks and other inputs -/

/-- Releases that are due are held back where modifiers are sticky. -/
theorem Booked.releasePhase {order? : Option Command} {o : Outcome B n}
    (h : Booked reg e order? o) (now : Nat) (gaming : Bool) :
    Booked reg e order?
      ((o.1.releasePhase now gaming).1, o.2 ++ (o.1.releasePhase now gaming).2) where
  sticky := h.sticky
  mode := h.mode
  released := by
    intro r hr hrelease
    show o.1.sticky = 0
    rcases List.mem_append.1 hr with hr | hr
    · exact h.released r hr hrelease
    · rw [Engine.releasePhase] at hr
      dsimp only at hr
      split at hr
      · rw [List.mem_singleton.1 hr] at hrelease
        exact releaseEvent_eq_release_iff.1 hrelease
      · cases hr

/-- The order of a step: that of its chord, or the one that a control message gives. -/
def Input.order? (reg : Registry B) (e : Engine B n) : Input n → Option Command
  | .tick now down => (⟨e, now, down⟩ : Tick B n).command? reg
  | .control (.setMode mode) => some (.setMode mode)
  | .control .exit => none
  | .apply _ => none

/-- The orders of a run, in their order. -/
def orders (reg : Registry B) (e : Engine B n) : List (Input n) → List Command
  | [] => []
  | i :: rest => (i.order? reg e).toList ++ orders reg (e.step reg i).1 rest

theorem booked_tick (reg : Registry B) (t : Tick B n) :
    Booked reg t.before (t.command? reg) (t.after reg, t.reports reg) := by
  cases mode : t.gaming reg with
  | true =>
      have hchord : t.chord? reg = none := by
        rw [Tick.chord?, mode]
        rfl
      rw [Tick.command?, hchord]
      rcases Tick.gaming_cases mode with ⟨-, hreports, hafter⟩ | ⟨-, hreports, hafter⟩
      · rw [hreports, hafter]
        exact booked_silent rfl rfl
      · rw [hreports, hafter]
        exact booked_event rfl rfl fun h => Event.noConfusion h
  | false =>
      obtain ⟨o, ho, hafter, hreports⟩ := Tick.calm_cases mode
      rw [hafter, hreports]
      refine Booked.releasePhase ?_ t.now false
      rcases ho with ⟨hchord, rfl⟩ | ⟨bits, hchord, d⟩
      · rw [Tick.command?, hchord]
        exact booked_silent rfl rfl
      · have horder : t.command? reg = (Chord.ofBits t.before.mode bits).order? reg := by
          rw [Tick.command?, hchord]
          rfl
        rw [horder]
        exact ⟨d.booked.sticky, d.booked.mode, d.booked.released⟩

theorem booked_step (reg : Registry B) (e : Engine B n) (i : Input n) :
    Booked reg e (i.order? reg e) (e.step reg i) := by
  cases i with
  | tick now down => exact booked_tick reg ⟨e, now, down⟩
  | control m =>
      cases m with
      | setMode mode => exact booked_setMode mode
      | exit => exact booked_silent rfl rfl
  | apply settings => exact booked_silent rfl rfl

/-! ## Runs -/

theorem sticky_step {orders : List Command} (h : e.sticky = Command.toggledSince reg orders)
    (i : Input n) :
    (e.step reg i).1.sticky = Command.toggledSince reg (orders ++ (i.order? reg e).toList) := by
  rw [(booked_step reg e i).sticky]
  cases i.order? reg e with
  | none =>
      rw [Option.toList_none, List.append_nil]
      exact h
  | some c =>
      rw [Option.toList_some, Command.toggledSince_concat, ← h]

theorem sticky_run {orders : List Command} (h : e.sticky = Command.toggledSince reg orders)
    (inputs : List (Input n)) :
    (e.run reg inputs).1.sticky = Command.toggledSince reg (orders ++ e.orders reg inputs) := by
  induction inputs generalizing e orders with
  | nil =>
      show e.sticky = Command.toggledSince reg (orders ++ [])
      rw [List.append_nil]
      exact h
  | cons i rest ih =>
      rw [run_cons, Engine.orders, ← List.append_assoc]
      exact ih (sticky_step h i)

theorem isGaming_congr {e' : Engine B n} (mode : e'.mode = e.mode) :
    e'.isGaming reg = e.isGaming reg := by
  rw [isGaming, isGaming, mode]

/-- Nothing is sticky in a gaming mode: it is entered with a reset, and no order is given
there. -/
theorem sticky_step_of_gaming (h : e.isGaming reg = true → e.sticky = 0) (i : Input n)
    (gaming : (e.step reg i).1.isGaming reg = true) : (e.step reg i).1.sticky = 0 := by
  have hbooked := booked_step reg e i
  rcases hbooked.mode with mode | reset
  · rw [isGaming_congr mode] at gaming
    rw [hbooked.sticky]
    cases i with
    | tick now down =>
        have hnone : (Input.tick now down).order? reg e = none := by
          show (⟨e, now, down⟩ : Tick B n).command? reg = none
          have hgaming : (⟨e, now, down⟩ : Tick B n).gaming reg = true := gaming
          rw [Tick.command?, Tick.chord?, hgaming]
          rfl
        rw [hnone]
        exact h gaming
    | control m =>
        cases m with
        | setMode m =>
            show (if reg.isValidMode m then 0 else e.sticky ^^^ 0) = 0
            rw [h gaming, UInt8.xor_zero, ite_self]
        | exit => exact h gaming
    | apply settings => exact h gaming
  · exact reset

theorem sticky_eq_zero_of_gaming (reg : Registry B) (settings : Settings)
    (inputs : List (Input n))
    (gaming : ((fresh B n settings).run reg inputs).1.isGaming reg = true) :
    ((fresh B n settings).run reg inputs).1.sticky = 0 := by
  have hsteps : ∀ (e : Engine B n) (i : Input n), (e.isGaming reg = true → e.sticky = 0) →
      (e.step reg i).1.isGaming reg = true → (e.step reg i).1.sticky = 0 :=
    fun _ i h => sticky_step_of_gaming h i
  have hfresh : (fresh B n settings).isGaming reg = true → (fresh B n settings).sticky = 0 :=
    fun _ => rfl
  exact run_invariant (p := fun e => e.isGaming reg = true → e.sticky = 0) hsteps hfresh inputs
    gaming

end Engine

/-- A chord orders modifiers to be toggled where its command entry says so, and they are the code
of the entry's second key. -/
theorem Tick.command?_eq_toggleSticky_iff {t : Tick B n} {mods : UInt8} :
    t.command? reg = some (.toggleSticky mods) ↔
      ∃ bits first second rest, t.chord? reg = some bits ∧ bits.isBlank = false ∧
        reg.lookup .command (Chord.ofBits t.before.mode bits) = some (first :: second :: rest) ∧
        first.code = Command.toggleStickyCode ∧ second.code = mods := by
  unfold command?
  cases hchord : t.chord? reg with
  | none => exact ⟨nofun, fun ⟨_, _, _, _, h, _⟩ => nomatch h⟩
  | some bits =>
      show (if bits.isBlank then none else (reg.lookup .command _).bind Command.ofKeys?) = _ ↔ _
      constructor
      · intro h
        cases blank : bits.isBlank with
        | true =>
            rw [blank] at h
            cases h
        | false =>
            rw [blank] at h
            obtain ⟨keys, found, order⟩ := Option.bind_eq_some_iff.1 h
            obtain ⟨first, second, rest, rfl, code, argument⟩ :=
              Command.ofKeys?_eq_toggleSticky_iff.1 order
            exact ⟨bits, first, second, rest, rfl, blank, found, code, argument⟩
      · rintro ⟨_, first, second, rest, hbits, blank, found, code, argument⟩
        cases hbits
        rw [blank, found]
        exact Command.ofKeys?_eq_toggleSticky_iff.2 ⟨first, second, rest, rfl, code, argument⟩

namespace Engine

/-- **Sticky modifiers are those toggled since the last reset.** In every state that an engine
reaches, the sticky modifiers are the exclusive or of those that its orders have toggled since
they were last reset, by a release of everything or by going to a mode. An order toggles what
the second key of its command entry says. In a gaming mode nothing is sticky.

Whatever the next input is, nothing is sticky either if a release is reported. Where the sticky
modifiers change in a step, they do so before it reports anything (`StickyKept`), so the moment
of the report is the end of the step. -/
theorem sticky_toggledSince (reg : Registry B) (settings : Settings) (inputs : List (Input n)) :
    ((fresh B n settings).run reg inputs).1.sticky =
        Command.toggledSince reg ((fresh B n settings).orders reg inputs) ∧
      (∀ (t : Tick B n) (mods : UInt8), t.command? reg = some (.toggleSticky mods) ↔
        ∃ bits first second rest, t.chord? reg = some bits ∧ bits.isBlank = false ∧
          reg.lookup .command (Chord.ofBits t.before.mode bits) =
            some (first :: second :: rest) ∧
          first.code = Command.toggleStickyCode ∧ second.code = mods) ∧
      (((fresh B n settings).run reg inputs).1.isGaming reg = true →
        ((fresh B n settings).run reg inputs).1.sticky = 0) ∧
      ∀ i : Input n, ∀ r ∈ (((fresh B n settings).run reg inputs).1.step reg i).2,
        r.toEvent = .release →
          (((fresh B n settings).run reg inputs).1.step reg i).1.sticky = 0 := by
  refine ⟨?_, ?_, ?_, ?_⟩
  · have hfresh : (fresh B n settings).sticky = Command.toggledSince reg [] := rfl
    exact sticky_run hfresh inputs
  · intro t mods
    exact Tick.command?_eq_toggleSticky_iff
  · exact sticky_eq_zero_of_gaming reg settings inputs
  · intro i
    exact (booked_step reg _ i).released

/-- Before its second command is due, `wordThenSticky` has toggled shift once. -/
def shiftToggled : List (Input 3) := wordThenSticky.take 14

/-- Shift is sticky until it is toggled again, and only then a release is reported. -/
theorem sticky_until_toggledAgain :
    start spacedWord 3 .usual = .ok (fresh 1 3 .usual) ∧
      (fresh 1 3 .usual).orders spacedWord shiftToggled = [.toggleSticky Modifier.leftShift] ∧
      ((fresh 1 3 .usual).run spacedWord shiftToggled).1.sticky = Modifier.leftShift ∧
      (((fresh 1 3 .usual).run spacedWord shiftToggled).1.step spacedWord
          (.tick 240000 (·.val == 2))).2 = [.event .release] ∧
      (((fresh 1 3 .usual).run spacedWord shiftToggled).1.step spacedWord
          (.tick 240000 (·.val == 2))).1.sticky = 0 := by
  have horders : (fresh 1 3 .usual).orders spacedWord shiftToggled =
      [.toggleSticky Modifier.leftShift] := by decide +kernel
  have hreports : (((fresh 1 3 .usual).run spacedWord shiftToggled).1.step spacedWord
      (.tick 240000 (·.val == 2))).2 = [.event .release] := by decide +kernel
  obtain ⟨hsticky, -, -, hreleased⟩ := sticky_toggledSince spacedWord .usual shiftToggled
  refine ⟨rfl, horders, ?_, hreports, ?_⟩
  · rw [hsticky, horders]
    decide
  · exact hreleased _ (.event .release) (hreports ▸ List.mem_singleton_self _) rfl

end Engine

end Chordboard
