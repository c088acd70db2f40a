import Chordboard.Engine.Session
import Chordboard.Proofs.Engine.NewPress
import Chordboard.Proofs.Switches.LaterTimers

/-!
# Translation in time

An engine is told the time by its ticks. It keeps times in its timers only, and looks at nothing
but how far apart two of them are. So an engine whose running timers were started later by some
time (`Engine.later`) makes the same reports at every step that is taken later by that time
(`step_later`), and a session that happens earlier or later as a whole looks the same
(`Session.watch_shift`).
-/

namespace Chordboard

variable {B n capacity : Nat} {d now : Nat}

namespace Engine

/-! ## Engines at a later time -/

/-- The engine, had all its running timers been started `d` later. -/
def later (d : Nat) (e : Engine B n) : Engine B n :=
  { e with switches := e.switches.later d }

theorem switches_later (e : Engine B n) : (e.later d).switches = e.switches.later d := rfl

/-- The same reports, and the state at a later time. -/
def Outcome.later (d : Nat) (o : Outcome B n) : Outcome B n :=
  (o.1.later d, o.2)

/-- Nothing runs in a fresh engine. -/
theorem later_fresh (settings : Settings) : (fresh B n settings).later d = fresh B n settings := by
  unfold later fresh
  dsimp only
  rw [Switches.later_new]

/-! ## Steps that do not ask for the time -/

variable (reg : Registry B) (e : Engine B n)

theorem applySettings_later (settings : Settings) :
    (e.later d).applySettings settings = (e.applySettings settings).later d := by
  unfold applySettings
  rw [switches_later, Switches.applySettings_later]
  rfl

theorem setMode_later (mode : Nat) :
    (e.later d).setMode reg mode = (e.setMode reg mode).later d := by
  unfold setMode
  split <;> rfl

theorem control_later (m : ControlMessage) :
    (e.later d).control reg m = ((e.control reg m).1.later d, (e.control reg m).2) := by
  cases m with
  | setMode mode =>
      unfold control
      dsimp only
      rw [setMode_later]
  | exit => rfl

theorem reuseMods_later (c : Chord B) :
    (e.later d).reuseMods reg c = (e.reuseMods reg c).later d := by
  unfold reuseMods
  rw [switches_later, Switches.reuseMods_later]
  rfl

theorem sendWord?_later (c : Chord B) :
    (e.later d).sendWord? reg c = (e.sendWord? reg c).map (Outcome.later d) := by
  unfold sendWord?
  split <;> rfl

theorem cycleLastWord_later (what : Cycle) :
    (e.later d).cycleLastWord reg what = (e.cycleLastWord reg what).later d := by
  unfold cycleLastWord
  rw [show (e.later d).lastWord = e.lastWord from rfl]
  cases e.lastWord with
  | none => rfl
  | some last =>
      dsimp only
      rw [sendWord?_later]
      cases e.sendWord? reg (cycleChord reg what last.chord) <;> rfl

theorem runCommand_later (c : Command) :
    (e.later d).runCommand reg c = (e.runCommand reg c).later d := by
  cases c with
  | cycle what => exact cycleLastWord_later reg e what
  | releaseAll => rfl
  | toggleSticky mods => rfl
  | setMode mode => exact setMode_later reg e mode

theorem runKeys_later (keys : List Key) :
    (e.later d).runKeys reg keys = (e.runKeys reg keys).later d := by
  unfold runKeys
  cases Command.ofKeys? keys with
  | none => rfl
  | some command => exact runCommand_later reg e command

theorem sendWordChord_later (c : Chord B) :
    (e.later d).sendWordChord reg c = (e.sendWordChord reg c).later d := by
  unfold sendWordChord
  dsimp only
  rw [sendWord?_later]
  cases e.sendWord? reg ((c.extractWord reg).extractAnagram reg) with
  | none => rfl
  | some sent =>
      dsimp only [Option.map_some, Outcome.later]
      rw [reuseMods_later]

theorem sendKeyChord_later (c : Chord B) :
    (e.later d).sendKeyChord reg c = (e.sendKeyChord reg c).later d := by
  unfold sendKeyChord
  dsimp only
  split
  · rw [reuseMods_later]
    rfl
  · cases lookupKeys reg (c.extractPlain reg) with
    | none => exact sendWordChord_later reg e _
    | some keys =>
        dsimp only
        rw [reuseMods_later]
        rfl

theorem dispatch_later (c : Chord B) :
    (e.later d).dispatch reg c = (e.dispatch reg c).later d := by
  unfold dispatch
  split
  · rfl
  · cases reg.lookup .command c with
    | none => exact sendKeyChord_later reg e c
    | some keys => exact runKeys_later reg e keys

theorem sendChord_later : (e.later d).sendChord reg = (e.sendChord reg).later d := by
  unfold sendChord
  rw [switches_later, Switches.assemble_later]
  exact dispatch_later reg { e with switches := (e.switches.assemble B).2 } _

theorem sendGaming_later : (e.later d).sendGaming reg = (e.sendGaming reg).later d := by
  unfold sendGaming
  rw [switches_later, Switches.assembleSingles_later]
  rfl

/-! ## Ticks -/

theorem sample_later (gaming : Bool) (down : Fin n → Bool) :
    (e.later d).sample (now + d) gaming down = (e.sample now gaming down).later d := by
  unfold sample
  rw [switches_later, Switches.update_later]
  rfl

theorem pressPhase_later (gaming : Bool) :
    (e.later d).pressPhase reg (now + d) gaming = (e.pressPhase reg now gaming).later d := by
  unfold pressPhase
  rw [switches_later, Switches.pressDue_later]
  let asked : Engine B n := { e with switches := (e.switches.pressDue now gaming).2 }
  dsimp only
  split
  · split
    · exact sendGaming_later reg asked
    · exact sendChord_later reg asked
  · rfl

theorem releasePhase_later (gaming : Bool) :
    (e.later d).releasePhase (now + d) gaming = (e.releasePhase now gaming).later d := by
  unfold releasePhase
  rw [switches_later, Switches.releaseDue_later]
  rfl

/-- A tick makes the same reports that much later. -/
theorem tick_later (down : Fin n → Bool) :
    (e.later d).tick reg (now + d) down = (e.tick reg now down).later d := by
  have hgaming : (e.later d).isGaming reg = e.isGaming reg := rfl
  unfold tick
  dsimp only
  rw [hgaming, sample_later, pressPhase_later]
  dsimp only [Outcome.later]
  rw [releasePhase_later]
  rfl

/-- The input, had it come `d` later. -/
def Input.later (d : Nat) : Input n → Input n
  | .tick now down => .tick (now + d) down
  | .control m => .control m
  | .apply settings => .apply settings

/-- **One step.** Whatever comes in, the same is reported that much later. -/
theorem step_later (i : Input n) :
    (e.later d).step reg (i.later d) = (e.step reg i).later d := by
  cases i with
  | tick now down => exact tick_later reg e down
  | control m => exact congrArg Prod.fst (control_later reg e m)
  | apply settings =>
      unfold step
      dsimp only [Input.later]
      rw [applySettings_later]
      rfl

end Engine

namespace Session

/-! ## Sessions at another time -/

/-- The session, had all of it happened `d` later. -/
def later (d : Nat) (s : Session B n capacity) : Session B n capacity :=
  { s with engine := s.engine.later d }

def Action.later (d : Nat) : Action n → Action n
  | .input i => .input (i.later d)
  | .receive => .receive

variable (reg : Registry B) (s : Session B n capacity)

theorem step_later (a : Action n) :
    (s.later d).step reg (a.later d) = ((s.step reg a).1.later d, (s.step reg a).2) := by
  cases a with
  | input i =>
      unfold step
      dsimp only [Action.later]
      rw [show (s.later d).engine = s.engine.later d from rfl, Engine.step_later]
      rfl
  | receive => rfl

theorem sight_later (reports : List Report) : (s.later d).sight reports = s.sight reports := by
  unfold sight
  congr 1
  refine Vector.ext fun i h => ?_
  rw [Vector.getElem_map, Vector.getElem_map]
  show ((s.engine.switches.later d).slots[i]).status = _
  rw [Switches.getElem_later]
  rfl

theorem watch_later (actions : List (Action n)) :
    (s.later d).watch reg (actions.map (Action.later d)) = s.watch reg actions := by
  induction actions generalizing s with
  | nil => rfl
  | cons a actions ih =>
      rw [List.map_cons, watch, step_later]
      dsimp only
      rw [sight_later, ih]
      rfl

/-- A session can be opened at any time. -/
theorem watch_opened_later (settings : Settings) (actions : List (Action n)) :
    (opened B n capacity settings).watch reg (actions.map (Action.later d)) =
      (opened B n capacity settings).watch reg actions := by
  have hopened : (opened B n capacity settings).later d = opened B n capacity settings := by
    unfold later opened
    dsimp only
    rw [Engine.later_fresh]
  have hwatch := watch_later reg (opened B n capacity settings) (d := d) actions
  rwa [hopened] at hwatch

/-- The action, but at a time that is `d` away, be it later or earlier. -/
def Action.shift (d : Int) : Action n → Action n
  | .input (.tick now down) => .input (.tick (now + d).toNat down)
  | a => a

/-- There is such a time. -/
def Action.CanShift (d : Int) : Action n → Prop
  | .input (.tick now _) => 0 ≤ now + d
  | _ => True

instance (d : Int) (a : Action n) : Decidable (a.CanShift d) :=
  match a with
  | .input (.tick now _) => inferInstanceAs (Decidable (0 ≤ now + d))
  | .input (.control _) => inferInstanceAs (Decidable True)
  | .input (.apply _) => inferInstanceAs (Decidable True)
  | .receive => inferInstanceAs (Decidable True)

theorem Action.shift_natCast (d : Nat) (a : Action n) : a.shift d = a.later d := by
  rcases a with (⟨now, down⟩ | m | settings) | _
  · rfl
  · rfl
  · rfl
  · rfl

/-- Going back is undone by going on. -/
theorem Action.later_shift {a : Action n} (can : a.CanShift (-d)) :
    (a.shift (-d)).later d = a := by
  rcases a with (⟨now, down⟩ | m | settings) | _
  · have htime : ((now : Int) + -d).toNat + d = now := by
      have hnonneg : 0 ≤ (now : Int) + -d := can
      omega
    show Action.input (.tick (((now : Int) + -d).toNat + d) down) = _
    rw [htime]
  · rfl
  · rfl
  · rfl

/-- **Translation in time.** Take any session, with times that may also go back, and let it
happen earlier or later as a whole. As long as no tick would come before the time zero, every
step reports the same, and leaves the same events received, the same mode and the same
statuses. -/
theorem watch_shift (settings : Settings) {d : Int} {actions : List (Action n)}
    (can : ∀ a ∈ actions, a.CanShift d) :
    (opened B n capacity settings).watch reg (actions.map (Action.shift d)) =
      (opened B n capacity settings).watch reg actions := by
  obtain ⟨k, rfl | rfl⟩ := d.eq_nat_or_neg
  · have hshift : actions.map (Action.shift k) = actions.map (Action.later k) :=
      List.map_congr_left fun a _ => a.shift_natCast k
    rw [hshift]
    exact watch_opened_later reg settings actions
  · -- It is the shifted actions here that have to go on to be the given ones.
    have hback : (actions.map (Action.shift (-k))).map (Action.later k) = actions := by
      rw [List.map_map]
      exact (List.map_congr_left fun a ha => Action.later_shift (can a ha)).trans (List.map_id _)
    rw [← watch_opened_later reg settings (actions.map (Action.shift (-k))), hback]

/-- Switch 0 is sent by a chord that is due after its clock was set back, and is released in the
gaming mode. -/
def setBack : List (Action 2) :=
  [.input (.tick 100000 (·.val == 0)), .input (.tick 110000 (·.val == 0)),
    .input (.tick 90000 (·.val == 0)), .input (.tick 140000 (·.val == 0)), .receive,
    .input (.control (.setMode 1)), .input (.tick 95000 fun _ => false), .receive]

theorem watch_setBack_shift :
    (∀ a ∈ setBack, a.CanShift (-90000)) ∧
      (opened 1 2 4 .usual).watch Engine.twoModes (setBack.map (Action.shift (-90000))) =
        (opened 1 2 4 .usual).watch Engine.twoModes setBack ∧
      ((opened 1 2 4 .usual).watch Engine.twoModes
          (setBack.map (Action.shift (-90000)))).map Sight.reports =
        [[], [], [], [.event (.sequence [Key.plain 4] 0)], [], [.event .release],
          [.event (.hold [] 0)], []] := by
  have can : ∀ a ∈ setBack, a.CanShift (-90000) := by decide
  have hwatch := @watch_shift 1 2 4 Engine.twoModes .usual (-90000) setBack can
  refine ⟨can, hwatch, ?_⟩
  rw [hwatch]
  decide +kernel

end Session

end Chordboard
