import Chordboard.Engine.Scanned
import Chordboard.Proofs.Engine.NewPress
import Chordboard.Simulation.Board
import Mathlib.Data.List.Nodup

/-!
# A scanned board sees its switches

A scan drives the outputs low in turn, and each of them overwrites what the one before has left
on the inputs. As long as all outputs are high before it (`Board.Resting`), the inputs are read
as the switches of the one output that is low, whatever their levels were (`scanOutput_board`),
and all outputs are high again after it. Switches that are moved in between change no output.

So a scanned board and a bank of as many switches stay in step (`ScannedBoard.InStep`), and two
keyboards that stay in step are the same to everyone who uses them (`Keyboard.Lockstep`), an
engine included.
-/

namespace Chordboard

/-! ## Keyboards in step -/

/-- A relation between two keyboards that no use of them breaks, and that shows no difference
between them. -/
structure Keyboard.Lockstep {σ τ : Type} [Keyboard σ] [Keyboard τ] (R : σ → τ → Prop) : Prop where
  move : ∀ {s t} (k : Nat) (down : Bool), R s t → R (Keyboard.move s k down) (Keyboard.move t k down)
  answer : ∀ {s t}, R s t → (Scanner.scan s).1 = (Scanner.scan t).1
  scan : ∀ {s t}, R s t → R (Scanner.scan s).2 (Scanner.scan t).2
  isDown : ∀ {s t}, R s t → ∀ k, Scanner.isDown s k = Scanner.isDown t k

namespace Keyboard.Lockstep

variable {σ τ : Type} [Keyboard σ] [Keyboard τ] {R : σ → τ → Prop}

theorem perform (l : Lockstep R) {s : σ} {t : τ} (h : R s t) (uses : List Keyboard.Use) :
    (Keyboard.perform s uses).1 = (Keyboard.perform t uses).1 ∧
      R (Keyboard.perform s uses).2 (Keyboard.perform t uses).2 := by
  induction uses generalizing s t with
  | nil => exact ⟨rfl, h⟩
  | cons u uses ih =>
      cases u with
      | move k down => exact ih (l.move k down h)
      | scan =>
          obtain ⟨hanswers, hrest⟩ := ih (l.scan h)
          exact ⟨List.cons_eq_cons.2 ⟨l.answer h, hanswers⟩, hrest⟩

variable {B n : Nat}

theorem stepOn (l : Lockstep R) (reg : Registry B) (e : Engine B n) {s : σ} {t : τ} (h : R s t)
    (i : Engine.KeyboardInput) :
    (e.stepOn reg s i).1 = (e.stepOn reg t i).1 ∧
      R (e.stepOn reg s i).2 (e.stepOn reg t i).2 := by
  cases i with
  | move k down => exact ⟨rfl, l.move k down h⟩
  | tick now =>
      have hscanned := l.scan h
      have hseen : Engine.seen n (Scanner.scan s).2 = Engine.seen n (Scanner.scan t).2 :=
        funext fun i => l.isDown hscanned i
      refine ⟨?_, hscanned⟩
      show e.tick reg now (Engine.seen n (Scanner.scan s).2) =
        e.tick reg now (Engine.seen n (Scanner.scan t).2)
      rw [hseen]
  | control m => exact ⟨rfl, h⟩
  | apply settings => exact ⟨rfl, h⟩

/-- An engine does the same on either keyboard. -/
theorem runOn (l : Lockstep R) (reg : Registry B) (e : Engine B n) {s : σ} {t : τ} (h : R s t)
    (inputs : List Engine.KeyboardInput) :
    (e.runOn reg s inputs).1 = (e.runOn reg t inputs).1 := by
  induction inputs generalizing e s t with
  | nil => rfl
  | cons i inputs ih =>
      obtain ⟨hfirst, hrest⟩ := l.stepOn reg e h i
      unfold Engine.runOn
      dsimp only
      rw [hfirst, ih _ hrest]

end Keyboard.Lockstep

/-! ## Levels and switches of a board -/

namespace Board

variable {inputs outputs : Nat} {b : Board inputs outputs}

/-- An output that is driven has its new level, and the others keep theirs. -/
theorem output?_setOutput {o : Nat} (ho : o < outputs) (level : Level) (o' : Nat) :
    (b.setOutput o level).output? o' = if o' = o then some level else b.output? o' := by
  unfold setOutput
  split
  · rename_i same
    split
    · rename_i h
      rw [h, same]
    · rfl
  · rw [Vector.getElem?_eq_getElem ho]
    dsimp only
    unfold output?
    dsimp only
    rw [Vector.getElem?_setIfInBounds]
    by_cases h : o = o'
    · subst h
      simp [ho]
    · simp [h, Ne.symm h]

theorem numbers_setOutput (o : Nat) (level : Level) :
    (b.setOutput o level).numbers = b.numbers := by
  unfold setOutput
  split
  · rfl
  · split <;> rfl

theorem closed_setOutput (o : Nat) (level : Level) : (b.setOutput o level).closed = b.closed := by
  unfold setOutput
  split
  · rfl
  · split <;> rfl

/-- Pins with numbers of their own are told apart. -/
theorem outputOf_number (distinct : b.numbers.toList.Nodup) {o : Nat} (ho : o < outputs) :
    b.outputOf b.numbers[o] = o := by
  have hlt : o < b.numbers.toList.length := by rwa [Vector.length_toList]
  have hget : b.numbers[o] = b.numbers.toList[o] := (Vector.getElem_toList hlt).symm
  unfold outputOf
  rw [hget, distinct.idxOf_getElem]

/-- An output that goes low puts its own switches on the inputs, whatever was there before. -/
theorem input?_setOutput_low (distinct : b.numbers.toList.Nodup) {o i : Nat} (ho : o < outputs)
    (high : b.output? o = some .high) (hi : i < inputs) :
    (b.setOutput o .low).input? i = some (if b.isClosed i o then .low else .high) := by
  have hchange : b.output? o ≠ some .low := by
    rw [high]
    nofun
  unfold setOutput
  rw [if_neg hchange, Vector.getElem?_eq_getElem ho]
  simp [input?, hi, inducedLevel, outputOf_number distinct ho]

theorem isClosed_setSwitch (i o i' o' : Nat) (down : Bool) :
    (b.setSwitch i o down).isClosed i' o' =
      if (i', o') = (i, o) then down else b.isClosed i' o' := by
  unfold setSwitch
  by_cases same : b.isClosed i o = down
  · rw [if_pos same]
    split
    · rename_i h
      obtain ⟨rfl, rfl⟩ := Prod.mk.inj h
      exact same
    · rfl
  · rw [if_neg same]
    cases down with
    | true =>
        have hclosed (c : Board inputs outputs) :
            (if c.output? o = some .low then c.setInput i .low else c).isClosed i' o' =
              c.isClosed i' o' := by
          split <;> rfl
        rw [if_pos rfl]
        dsimp only
        rw [hclosed]
        simp only [isClosed, List.contains_cons]
        by_cases h : (i', o') = (i, o) <;> simp [h]
    | false =>
        rw [if_neg Bool.false_ne_true]
        simp only [setInput, isClosed]
        by_cases h : (i', o') = (i, o) <;> simp [h]

/-- Moving a switch drives no output. -/
theorem frame_setSwitch (i o : Nat) (down : Bool) :
    (b.setSwitch i o down).numbers = b.numbers ∧
      (b.setSwitch i o down).outputLevels = b.outputLevels := by
  unfold setSwitch
  split
  · exact ⟨rfl, rfl⟩
  · split
    · dsimp only
      split <;> exact ⟨rfl, rfl⟩
    · exact ⟨rfl, rfl⟩

/-- Between two scans all outputs are high, and their pins can be told apart. -/
structure Resting (b : Board inputs outputs) : Prop where
  distinct : b.numbers.toList.Nodup
  high : ∀ o < outputs, b.output? o = some .high

theorem Resting.setSwitch (h : b.Resting) (i o : Nat) (down : Bool) :
    (b.setSwitch i o down).Resting := by
  obtain ⟨hnumbers, hlevels⟩ := b.frame_setSwitch i o down
  constructor
  · rw [hnumbers]
    exact h.distinct
  · intro o' ho'
    rw [output?, hlevels]
    exact h.high o' ho'

/-! ## One scan -/

/-- Reading changes nothing. -/
theorem readInputs_eq (is : List Nat) (b : Board inputs outputs) :
    PinMatrix.readInputs is b = (is.map fun i => b.input? i == some .low, b) := by
  induction is with
  | nil => rfl
  | cons i is ih =>
      have hread : (PinBank.readLow? b i : Option Bool × Board inputs outputs) =
          (some (b.input? i == some .low), b) := rfl
      rw [PinMatrix.readInputs, hread]
      dsimp only
      rw [ih]
      rfl

/-- **One output.** The inputs are read as the switches of the output, and the board rests
again with the same switches closed. -/
theorem scanOutput_eq (h : b.Resting) {o : Nat} (ho : o < outputs) (settle : Nat) :
    (PinMatrix.scanOutput inputs settle o b).1 =
        ((List.range inputs).map fun i => b.isClosed i o) ∧
      (PinMatrix.scanOutput inputs settle o b).2.Resting ∧
      (PinMatrix.scanOutput inputs settle o b).2.closed = b.closed := by
  -- While the inputs are read, the output is low.
  let driven := (b.setOutput o .low).pause settle
  have hscan : PinMatrix.scanOutput inputs settle o b =
      ((List.range inputs).map fun i => driven.input? i == some .low,
        driven.setOutput o .high) := by
    unfold PinMatrix.scanOutput
    dsimp only
    rw [readInputs_eq]
    rfl
  rw [hscan]
  refine ⟨?_, ⟨?_, ?_⟩, ?_⟩
  · refine List.map_congr_left fun i hi => ?_
    have hinput : driven.input? i = some (if b.isClosed i o then .low else .high) :=
      input?_setOutput_low h.distinct ho (h.high o ho) (List.mem_range.1 hi)
    rw [hinput]
    cases b.isClosed i o <;> rfl
  · show (driven.setOutput o .high).numbers.toList.Nodup
    have hnumbers : driven.numbers = b.numbers := numbers_setOutput o .low
    rw [numbers_setOutput, hnumbers]
    exact h.distinct
  · intro o' ho'
    have houtput : driven.output? o' = if o' = o then some .low else b.output? o' :=
      output?_setOutput ho .low o'
    show (driven.setOutput o .high).output? o' = some .high
    rw [output?_setOutput ho, houtput]
    split
    · rfl
    · exact h.high o' ho'
  · show (driven.setOutput o .high).closed = b.closed
    have hclosed : driven.closed = b.closed := closed_setOutput o .low
    rw [closed_setOutput, hclosed]

/-- **All outputs.** -/
theorem scanOutputs_eq (h : b.Resting) {os : List Nat} (hos : ∀ o ∈ os, o < outputs)
    (settle : Nat) :
    (PinMatrix.scanOutputs inputs settle os b).1 =
        (os.flatMap fun o => (List.range inputs).map fun i => b.isClosed i o) ∧
      (PinMatrix.scanOutputs inputs settle os b).2.Resting ∧
      (PinMatrix.scanOutputs inputs settle os b).2.closed = b.closed := by
  induction os generalizing b with
  | nil => exact ⟨rfl, h, rfl⟩
  | cons o os ih =>
      obtain ⟨hread, hrest, hclosed⟩ := scanOutput_eq h (hos o List.mem_cons_self) settle
      obtain ⟨hlater, hrest', hclosed'⟩ :=
        ih hrest fun o' ho' => hos o' (List.mem_cons_of_mem o ho')
      refine ⟨?_, hrest', hclosed'.trans hclosed⟩
      have hsame : ∀ i o', (PinMatrix.scanOutput inputs settle o b).2.isClosed i o' =
          b.isClosed i o' := by
        intro i o'
        rw [isClosed, hclosed]
        rfl
      rw [PinMatrix.scanOutputs, List.flatMap_cons, ← hread]
      dsimp only
      rw [hlater]
      simp only [hsame]

end Board

/-- Going through the outputs and the inputs of each is going through the switches. -/
theorem flatMap_range_range (inputs outputs : Nat) (f : Nat → Nat → Bool) :
    ((List.range outputs).flatMap fun o => (List.range inputs).map fun i => f i o) =
      (List.range (inputs * outputs)).map fun k => f (k % inputs) (k / inputs) := by
  induction outputs with
  | zero => rfl
  | succ outputs ih =>
      have hlast : ((List.range inputs).map fun i => f i outputs) =
          (List.range inputs).map fun i =>
            f ((inputs * outputs + i) % inputs) ((inputs * outputs + i) / inputs) := by
        refine List.map_congr_left fun i hi => ?_
        have hlt := List.mem_range.1 hi
        rw [Nat.mul_add_mod, Nat.mod_eq_of_lt hlt, Nat.mul_add_div (by omega),
          Nat.div_eq_of_lt hlt, Nat.add_zero]
      rw [List.range_succ, List.flatMap_append, ih, Nat.mul_succ, List.range_add,
        List.map_append, List.map_map, List.flatMap_singleton, hlast]
      rfl

/-! ## A board and a bank of switches -/

namespace ScannedBoard

variable {inputs outputs : Nat}

/-- The same switches are down, the last scans saw the same, and the board rests. -/
structure InStep (m : ScannedBoard inputs outputs) (b : SwitchBank (inputs * outputs)) : Prop where
  resting : m.pins.Resting
  closed : ∀ k (h : k < inputs * outputs), m.pins.isClosed (k % inputs) (k / inputs) = b.down[k]
  seen : m.seen = b.seen.toList

variable {m : ScannedBoard inputs outputs} {b : SwitchBank (inputs * outputs)}

theorem InStep.move (h : InStep m b) (k : Nat) (down : Bool) :
    InStep (m.move k down) (b.move k down) where
  resting := h.resting.setSwitch _ _ down
  closed := by
    intro j hj
    show (m.pins.setSwitch (k % inputs) (k / inputs) down).isClosed (j % inputs) (j / inputs) =
      (b.down.setIfInBounds k down)[j]
    rw [Board.isClosed_setSwitch, Vector.getElem_setIfInBounds, h.closed j hj]
    -- A switch is told by its input and its output.
    have hsame : (j % inputs, j / inputs) = (k % inputs, k / inputs) ↔ k = j := by
      constructor
      · intro heq
        obtain ⟨hmod, hdiv⟩ := Prod.mk.inj heq
        rw [← Nat.div_add_mod k inputs, ← Nat.div_add_mod j inputs, hmod, hdiv]
      · rintro rfl
        rfl
    by_cases hkj : k = j
    · rw [if_pos (hsame.2 hkj), if_pos hkj]
    · rw [if_neg (mt hsame.1 hkj), if_neg hkj]
  seen := h.seen

/-- A scan of the board sees the switches as they are. -/
theorem InStep.scanned (h : InStep m b) :
    (PinMatrix.scanOutputs inputs m.settle (List.range outputs) m.pins).1 = b.down.toList := by
  have hos : ∀ o ∈ List.range outputs, o < outputs := fun o => List.mem_range.1
  rw [(Board.scanOutputs_eq h.resting hos m.settle).1, flatMap_range_range]
  refine List.ext_getElem (by simp) fun k hk hk' => ?_
  have hlt : k < inputs * outputs := by simpa using hk
  simp [h.closed k hlt]

theorem InStep.answer (h : InStep m b) : m.scan.1 = b.scan.1 := by
  show (m.seen != _) = (b.seen != b.down)
  rw [h.scanned, h.seen]
  by_cases hsame : b.seen = b.down
  · simp [hsame]
  · have hlists : b.seen.toList ≠ b.down.toList := mt Vector.toList_inj.1 hsame
    simp [bne_iff_ne.2 hlists, bne_iff_ne.2 hsame]

theorem InStep.scan (h : InStep m b) : InStep m.scan.2 b.scan.2 := by
  have hos : ∀ o ∈ List.range outputs, o < outputs := fun o => List.mem_range.1
  obtain ⟨-, hresting, hclosed⟩ := Board.scanOutputs_eq h.resting hos m.settle
  constructor
  · exact hresting
  · intro k hk
    show (PinMatrix.scanOutputs inputs m.settle (List.range outputs) m.pins).2.closed.contains _ =
      b.down[k]
    rw [hclosed]
    exact h.closed k hk
  · exact h.scanned

theorem InStep.isDown (h : InStep m b) (k : Nat) : m.isDown k = b.isDown k := by
  show m.seen.getD k false = b.seen[k]?.getD false
  rw [h.seen]
  simp

theorem lockstep : Keyboard.Lockstep (@InStep inputs outputs) where
  move := fun k down h => h.move k down
  answer := fun h => h.answer
  scan := fun h => h.scan
  isDown := fun h => h.isDown

/-- Driving every output high leaves the board resting, with the same switches closed. -/
theorem resting_driveHigh {pins : Board inputs outputs} (distinct : pins.numbers.toList.Nodup)
    {os : List Nat} (hos : ∀ o ∈ os, o < outputs)
    (hall : ∀ o < outputs, o ∈ os ∨ pins.output? o = some .high) :
    (os.foldl (fun p o => PinBank.drive p o .high) pins).Resting ∧
      (os.foldl (fun p o => PinBank.drive p o .high) pins).closed = pins.closed := by
  induction os generalizing pins with
  | nil => exact ⟨⟨distinct, fun o ho => (hall o ho).resolve_left List.not_mem_nil⟩, rfl⟩
  | cons o os ih =>
      let driven := pins.setOutput o .high
      have hnumbers : driven.numbers = pins.numbers := Board.numbers_setOutput o .high
      have hclosed : driven.closed = pins.closed := Board.closed_setOutput o .high
      have houtput : ∀ o', driven.output? o' = if o' = o then some .high else pins.output? o' :=
        Board.output?_setOutput (hos o List.mem_cons_self) .high
      have hall' : ∀ o' < outputs, o' ∈ os ∨ driven.output? o' = some .high := by
        intro o' ho'
        rw [houtput]
        by_cases hsame : o' = o
        · exact Or.inr (if_pos hsame)
        · rw [if_neg hsame]
          exact (hall o' ho').imp_left (List.mem_of_ne_of_mem hsame)
      obtain ⟨hresting, hrest⟩ :=
        ih (hnumbers ▸ distinct) (fun o' ho' => hos o' (List.mem_cons_of_mem o ho')) hall'
      exact ⟨hresting, hrest.trans hclosed⟩

/-- Before any use, nothing is down and nothing was seen. -/
theorem inStep_wired {numbers : Vector UInt8 outputs} (distinct : numbers.toList.Nodup) :
    InStep (wired inputs numbers) (SwitchBank.new (inputs * outputs)) := by
  obtain ⟨hresting, hclosed⟩ := @resting_driveHigh inputs outputs (Board.wired inputs numbers)
    distinct (List.range outputs) (fun o => List.mem_range.1)
    (fun o ho => Or.inl (List.mem_range.2 ho))
  refine ⟨hresting, fun k hk => ?_, ?_⟩
  · show (wired inputs numbers).pins.closed.contains _ = (Vector.replicate _ false)[k]
    rw [show (wired inputs numbers).pins.closed = [] from hclosed, Vector.getElem_replicate]
    rfl
  · exact Vector.toList_replicate.symm

/-- **A scanned board sees its switches.** Wire a board with pins of different numbers, and move
its switches and those of a bank alike. Every scan of the two answers the same, both see the same
switches down after it, the board none beyond its own, and all outputs are high. So whatever
happens to an engine, it does and reports the same on either. -/
theorem scans_agree {numbers : Vector UInt8 outputs} (distinct : numbers.toList.Nodup)
    (inputs : Nat) :
    (∀ uses : List Keyboard.Use,
      let board := Keyboard.perform (wired inputs numbers) uses
      let bank := Keyboard.perform (SwitchBank.new (inputs * outputs)) uses
      board.1 = bank.1 ∧
        (∀ k < inputs * outputs, Scanner.isDown board.2 k = Scanner.isDown bank.2 k) ∧
        (∀ k, inputs * outputs ≤ k → Scanner.isDown board.2 k = false) ∧
        ∀ o < outputs, board.2.pins.output? o = some .high) ∧
      ∀ {B n : Nat} (reg : Registry B) (e : Engine B n) (events : List Engine.KeyboardInput),
        (e.runOn reg (wired inputs numbers) events).1 =
          (e.runOn reg (SwitchBank.new (inputs * outputs)) events).1 := by
  have hstart : InStep (wired inputs numbers) (SwitchBank.new (inputs * outputs)) :=
    inStep_wired distinct
  constructor
  · intro uses board bank
    obtain ⟨hanswers, hstep⟩ := lockstep.perform hstart uses
    refine ⟨hanswers, fun k _ => hstep.isDown k, ?_, hstep.resting.high⟩
    intro k hk
    refine (hstep.isDown k).trans ?_
    show bank.2.seen[k]?.getD false = false
    rw [Vector.getElem?_eq_none hk]
    rfl
  · intro B n reg e events
    exact lockstep.runOn reg e hstart events

/-- Switches 0 and 2 share an input. Switch 2 is down in two scans, and switch 0 in the first. -/
def sharedInput : List Keyboard.Use :=
  [.move 0 true, .move 2 true, .scan, .scan, .move 0 false, .scan]

/-- Switch 0 is pressed and its chord is sent. -/
def firstChord : List Engine.KeyboardInput :=
  [.move 0 true, .tick 0, .tick 10000, .tick 40000]

theorem scans_agree_three :
    #v[10, 11, 12].toList.Nodup ∧
      (Keyboard.perform (wired 2 #v[10, 11, 12]) sharedInput).1 = [true, false, true] ∧
      (List.range 6).map (Scanner.isDown
        (Keyboard.perform (wired 2 #v[10, 11, 12]) sharedInput).2) =
          [false, false, true, false, false, false] ∧
      ((Engine.fresh 1 6 .usual).runOn Engine.twoModes (wired 2 #v[10, 11, 12]) firstChord).1.2 =
        [.event (.sequence [Key.plain 4] 0)] := by
  have distinct : (#v[10, 11, 12] : Vector UInt8 3).toList.Nodup := by decide
  obtain ⟨huses, hengine⟩ := scans_agree distinct 2
  obtain ⟨hanswers, hdown, -⟩ := huses sharedInput
  have hanswers' : (Keyboard.perform (SwitchBank.new (2 * 3)) sharedInput).1 =
      [true, false, true] := by decide
  have hdown' : (List.range 6).map (Scanner.isDown
      (Keyboard.perform (SwitchBank.new (2 * 3)) sharedInput).2) =
        [false, false, true, false, false, false] := by decide
  have hreports : ((Engine.fresh 1 6 .usual).runOn Engine.twoModes (SwitchBank.new (2 * 3))
      firstChord).1.2 = [.event (.sequence [Key.plain 4] 0)] := by decide +kernel
  refine ⟨by decide, hanswers.trans hanswers', ?_, ?_⟩
  · rw [← hdown']
    exact List.map_congr_left fun k hk => hdown k (List.mem_range.1 hk)
  · rw [hengine Engine.twoModes (Engine.fresh 1 6 .usual) firstChord, hreports]

end ScannedBoard

end Chordboard
