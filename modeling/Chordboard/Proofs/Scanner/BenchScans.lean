import Chordboard.Proofs.Scanner.ScannedBoards
import Chordboard.Simulation.Bench
import Mathlib.Data.List.Induction

/-!
# A matrix on a test bench

The pins of a bench keep a record, and they can break at any time. As long as no output is low, a
scan does the same things to the pins in the same order whatever is broken, and changes nothing
but the record (`scanOutputs_eq`). Broken or not, no output is low between two uses of a matrix
that was put on a new bench (`Ready.use`): an output that could not be driven low need not be
driven high again.

So after any uses a scan sees the switches that are down and whose pins both work
(`scan_of_uses`).
-/

namespace Chordboard

namespace Bench

variable {b : Bench}

/-! ## One scan -/

/-- Puts what was done on the record. -/
def record (b : Bench) (calls : List PinCall) : Bench :=
  { b with calls := calls.reverse ++ b.calls }

theorem record_record (b : Bench) (first later : List PinCall) :
    (b.record first).record later = b.record (first ++ later) := by
  simp [record]

/-- The switch between two pins is down, and both pins work. -/
def sees (b : Bench) (input output : Nat) : Bool :=
  !b.brokenOutputs.contains output && !b.brokenInputs.contains input &&
    b.down.contains (output * b.inputs + input)

/-- An output that works is low, and no other one. -/
def lowered (b : Bench) (output : Nat) : Bench :=
  { b with low := if b.brokenOutputs.contains output then [] else [output] }

theorem drive_low (high : b.low = []) (output : Nat) :
    b.drive output .low = (b.lowered output).record [.drive output .low] := by
  unfold drive lowered
  by_cases broken : b.brokenOutputs.contains output
  · rw [if_pos broken, ← high]
    exact if_pos broken
  · rw [if_neg broken]
    refine (if_neg broken).trans ?_
    show { b.note (.drive output .low) with low := output :: b.low.filter (· != output) } = _
    rw [high]
    rfl

theorem drive_high (high : b.low = []) (output : Nat) (calls : List PinCall) :
    ((b.lowered output).record calls).drive output .high =
      b.record (calls ++ [.drive output .high]) := by
  have hrecord : b.record (calls ++ [.drive output .high]) =
      { b.record (calls ++ [.drive output .high]) with low := [] } := by
    rw [← high]
    rfl
  rw [hrecord]
  unfold drive lowered
  by_cases broken : b.brokenOutputs.contains output
  · refine (if_pos broken).trans ?_
    rw [if_pos broken]
    simp [record, note]
  · refine (if_neg broken).trans ?_
    rw [if_neg broken]
    simp [record, note]

theorem reads_lowered (b : Bench) (input output : Nat) :
    (!b.brokenInputs.contains input && (b.lowered output).isLow input) = b.sees input output := by
  unfold isLow lowered sees
  by_cases broken : b.brokenOutputs.contains output
  · rw [if_pos broken, broken]
    simp
  · rw [if_neg broken, Bool.eq_false_iff.2 broken]
    simp

/-- Reading adds to the record and changes nothing else. -/
theorem readInputs_eq (is : List Nat) (b : Bench) :
    PinMatrix.readInputs is b =
      (is.map fun i => !b.brokenInputs.contains i && b.isLow i,
        b.record (is.map PinCall.read)) := by
  induction is generalizing b with
  | nil => rfl
  | cons i is ih =>
      have hread : (PinBank.readLow? b i).1.getD false =
          (!b.brokenInputs.contains i && b.isLow i) := by
        show (if b.brokenInputs.contains i then none else some (b.isLow i)).getD false = _
        cases b.brokenInputs.contains i <;> rfl
      have hrecord : (PinBank.readLow? b i).2 = b.record [.read i] := rfl
      rw [PinMatrix.readInputs, hread, hrecord, ih, record_record]
      rfl

/-- What a scan does to the pins for one output. -/
def scanCalls (inputs settle output : Nat) : List PinCall :=
  [.drive output .low, .pause settle] ++ (List.range inputs).map PinCall.read ++
    [.drive output .high]

/-- **One output.** The inputs are read as the switches of the output, and the record grows. -/
theorem scanOutput_eq (high : b.low = []) (inputs settle output : Nat) :
    PinMatrix.scanOutput inputs settle output b =
      ((List.range inputs).map fun i => b.sees i output,
        b.record (scanCalls inputs settle output)) := by
  -- While the inputs are read, the output is low unless it is broken.
  have hdriven : PinBank.pause (PinBank.drive b output .low) settle =
      (b.lowered output).record [.drive output .low, .pause settle] := by
    show (b.drive output .low).note (.pause settle) = _
    rw [drive_low high]
    rfl
  unfold PinMatrix.scanOutput
  dsimp only
  rw [hdriven, readInputs_eq, record_record]
  refine Prod.ext (List.map_congr_left fun i _ => b.reads_lowered i output) ?_
  exact drive_high high output _

/-- **All outputs.** -/
theorem scanOutputs_eq (high : b.low = []) (inputs settle : Nat) (os : List Nat) :
    PinMatrix.scanOutputs inputs settle os b =
      (os.flatMap fun o => (List.range inputs).map fun i => b.sees i o,
        b.record (os.flatMap (scanCalls inputs settle))) := by
  induction os generalizing b with
  | nil => rfl
  | cons o os ih =>
      have hrest : (b.record (scanCalls inputs settle o)).low = [] := high
      rw [PinMatrix.scanOutputs, scanOutput_eq high]
      dsimp only
      rw [ih hrest, record_record]
      rfl

/-! ## Uses of a bench -/

/-- Something that happens to a matrix on a bench. -/
inductive Use where
  | move (k : Nat) (down : Bool)
  | breakPins (inputs outputs : List Nat)
  | setSettle (micros : Nat)
  | takeCalls
  | scan
deriving DecidableEq, Repr

variable {inputs outputs : Nat}

def use (m : PinMatrix Bench inputs outputs) : Use → PinMatrix Bench inputs outputs
  | .move k down => { m with pins := m.pins.move k down }
  | .breakPins is os => { m with pins := m.pins.breakPins is os }
  | .setSettle micros => m.setSettle micros
  | .takeCalls => { m with pins := m.pins.takeCalls.2 }
  | .scan => m.scan.2

/-- A matrix on a new bench, after these uses. -/
def after (inputs outputs : Nat) (uses : List Use) : PinMatrix Bench inputs outputs :=
  uses.foldl use (PinMatrix.new inputs outputs (Bench.new inputs outputs))

/-- What holds between two uses. -/
structure Ready (m : PinMatrix Bench inputs outputs) : Prop where
  high : m.pins.low = []
  wired : m.pins.inputs = inputs
  distinct : m.pins.down.Nodup
  seen : m.seen.length = inputs * outputs

variable {m : PinMatrix Bench inputs outputs}

/-- A scan is told by the pins before it. -/
theorem Ready.scan_eq (h : Ready m) :
    m.scan =
      (m.seen != (List.range (inputs * outputs)).map fun k => m.pins.sees (k % inputs) (k / inputs),
        { m with
          pins := m.pins.record ((List.range outputs).flatMap (scanCalls inputs m.settle))
          seen := (List.range (inputs * outputs)).map fun k =>
            m.pins.sees (k % inputs) (k / inputs) }) := by
  rw [PinMatrix.scan, scanOutputs_eq h.high, flatMap_range_range inputs outputs m.pins.sees]

/-- Outputs that work are high once they were driven high. -/
theorem low_driveHigh {os : List Nat} (works : b.brokenOutputs = []) (hall : ∀ o ∈ b.low, o ∈ os) :
    (os.foldl (fun p o => PinBank.drive p o .high) b).low = [] := by
  induction os generalizing b with
  | nil => exact List.eq_nil_iff_forall_not_mem.2 fun o ho => List.not_mem_nil (hall o ho)
  | cons o os ih =>
      have hdriven : b.drive o .high =
          { b.record [.drive o .high] with low := b.low.filter (· != o) } := by
        simp [drive, note, record, works]
      refine ih ?_ fun o' ho' => ?_
      · show (b.drive o .high).brokenOutputs = []
        rw [hdriven]
        exact works
      · have hlow : o' ∈ (b.drive o .high).low := ho'
        rw [hdriven] at hlow
        obtain ⟨hmem, hne⟩ := List.mem_filter.1 hlow
        exact List.mem_of_ne_of_mem (bne_iff_ne.1 hne) (hall o' hmem)

theorem frame_driveHigh (os : List Nat) (b : Bench) :
    (os.foldl (fun p o => PinBank.drive p o .high) b).inputs = b.inputs ∧
      (os.foldl (fun p o => PinBank.drive p o .high) b).down = b.down := by
  induction os generalizing b with
  | nil => exact ⟨rfl, rfl⟩
  | cons o os ih =>
      have hdriven : (b.drive o .high).inputs = b.inputs ∧ (b.drive o .high).down = b.down := by
        unfold drive
        dsimp only
        split <;> exact ⟨rfl, rfl⟩
      obtain ⟨hinputs, hdown⟩ := ih (b.drive o .high)
      exact ⟨hinputs.trans hdriven.1, hdown.trans hdriven.2⟩

theorem ready_new (inputs outputs : Nat) :
    Ready (PinMatrix.new inputs outputs (Bench.new inputs outputs)) := by
  obtain ⟨hinputs, hdown⟩ := frame_driveHigh (List.range outputs) (Bench.new inputs outputs)
  refine ⟨?_, hinputs, ?_, List.length_replicate⟩
  · exact low_driveHigh rfl fun o ho => ho
  · exact hdown ▸ List.nodup_nil

theorem Ready.use (h : Ready m) (u : Use) : Ready (use m u) := by
  cases u with
  | move k down =>
      refine ⟨h.high, h.wired, ?_, h.seen⟩
      have herase : (m.pins.down.erase k).Nodup := h.distinct.erase k
      cases down with
      | false => exact herase
      | true => exact List.nodup_cons.2 ⟨h.distinct.not_mem_erase, herase⟩
  | breakPins is os => exact ⟨h.high, h.wired, h.distinct, h.seen⟩
  | setSettle micros => exact ⟨h.high, h.wired, h.distinct, h.seen⟩
  | takeCalls => exact ⟨h.high, h.wired, h.distinct, h.seen⟩
  | scan =>
      show Ready m.scan.2
      rw [h.scan_eq]
      exact ⟨h.high, h.wired, h.distinct, by simp⟩

theorem ready_after (uses : List Use) : Ready (after inputs outputs uses) := by
  have hrun : ∀ m : PinMatrix Bench inputs outputs, Ready m → Ready (uses.foldl Bench.use m) := by
    induction uses with
    | nil => exact fun m h => h
    | cons u uses ih => exact fun m h => ih _ (h.use u)
  exact hrun _ (ready_new inputs outputs)

/-! ## What the uses say -/

theorem mem_down_move (distinct : b.down.Nodup) (k : Nat) (down : Bool) (k' : Nat) :
    k' ∈ (b.move k down).down ↔ if k' = k then down = true else k' ∈ b.down := by
  have herase : k' ∈ b.down.erase k ↔ k' ≠ k ∧ k' ∈ b.down := distinct.mem_erase_iff
  cases down with
  | false =>
      show k' ∈ b.down.erase k ↔ _
      rw [herase]
      split <;> simp [*]
  | true =>
      show k' ∈ k :: b.down.erase k ↔ _
      rw [List.mem_cons, herase]
      split <;> simp [*]

/-- Where a switch is moved to by a use, if it is moved. -/
def Use.movedTo? (k : Nat) : Use → Option Bool
  | .move k' down => if k' = k then some down else none
  | _ => none

theorem mem_down_use (h : Ready m) (u : Use) (k : Nat) :
    k ∈ (use m u).pins.down ↔ (u.movedTo? k).getD (decide (k ∈ m.pins.down)) = true := by
  cases u with
  | move k' down =>
      show k ∈ (m.pins.move k' down).down ↔
        ((if k' = k then some down else none).getD (decide (k ∈ m.pins.down))) = true
      rw [mem_down_move h.distinct]
      by_cases hsame : k' = k
      · rw [if_pos hsame, if_pos hsame.symm]
        rfl
      · rw [if_neg hsame, if_neg (Ne.symm hsame)]
        exact decide_eq_true_iff.symm
  | breakPins is os => exact decide_eq_true_iff.symm
  | setSettle micros => exact decide_eq_true_iff.symm
  | takeCalls => exact decide_eq_true_iff.symm
  | scan =>
      show k ∈ m.scan.2.pins.down ↔ _
      rw [h.scan_eq]
      exact decide_eq_true_iff.symm

/-- A switch is down if it was moved down and not up again since. -/
theorem mem_down_after (uses : List Use) (k : Nat) :
    k ∈ (after inputs outputs uses).pins.down ↔
      (uses.filterMap (Use.movedTo? k)).getLast? = some true := by
  induction uses using List.reverseRecOn with
  | nil =>
      have hdown : (after inputs outputs []).pins.down = [] := (frame_driveHigh _ _).2
      rw [hdown]
      exact ⟨fun h => absurd h List.not_mem_nil, nofun⟩
  | append_singleton uses u ih =>
      have hafter : after inputs outputs (uses ++ [u]) = use (after inputs outputs uses) u :=
        List.foldl_concat ..
      rw [hafter, mem_down_use (ready_after uses), List.filterMap_append]
      cases hmoved : u.movedTo? k with
      | none => simp [hmoved, ih]
      | some down => simp [hmoved]

/-! ## What a scan sees -/

/-- What a scan saw of a switch. -/
theorem Ready.isDown_scan (h : Ready m) (k : Nat) :
    m.scan.2.isDown k = true ↔
      k < inputs * outputs ∧ m.pins.sees (k % inputs) (k / inputs) = true := by
  rw [h.scan_eq]
  show ((List.range (inputs * outputs)).map _).getD k false = true ↔ _
  rw [List.getD_eq_getElem?_getD, List.getElem?_map]
  by_cases hk : k < inputs * outputs
  · rw [List.getElem?_range hk]
    simp [hk]
  · rw [List.getElem?_eq_none (by simpa using hk)]
    simp [hk]

theorem Ready.changed_scan (h : Ready m) :
    m.scan.1 = true ↔ ∃ k, m.scan.2.isDown k ≠ m.isDown k := by
  have hlength : m.scan.2.seen.length = m.seen.length :=
    (h.use .scan).seen.trans h.seen.symm
  have hanswer : m.scan.1 = (m.seen != m.scan.2.seen) := rfl
  rw [hanswer, bne_iff_ne, ← not_iff_not, not_not, not_exists]
  constructor
  · intro hsame k
    show ¬(m.scan.2.seen.getD k false ≠ m.seen.getD k false)
    rw [hsame]
    exact not_not.2 rfl
  · intro hsame
    refine List.ext_getElem hlength.symm fun k hk hk' => ?_
    have hget : m.scan.2.seen.getD k false = m.seen.getD k false := not_not.1 (hsame k)
    rw [List.getD_eq_getElem?_getD, List.getD_eq_getElem?_getD, List.getElem?_eq_getElem hk,
      List.getElem?_eq_getElem hk'] at hget
    exact hget.symm

/-- **A scan sees the switches that are down and whose pins both work.** Put a matrix on a new
bench, and move its switches, break and mend its pins, and scan in any order. Then a scan sees
switch `k` down exactly if it is a switch of the matrix, is down, and its input and its output both
work; it says whether this is another set of switches than the last scan saw. It drives every
output low in turn, waits, reads every input, and drives the output high again, broken or not, and
does nothing else to the pins. -/
theorem scan_of_uses (inputs outputs : Nat) (uses : List Use) :
    let m := after inputs outputs uses
    let scanned := m.scan
    (∀ k, scanned.2.isDown k = true ↔
      k < inputs * outputs ∧ (uses.filterMap (Use.movedTo? k)).getLast? = some true ∧
        k % inputs ∉ m.pins.brokenInputs ∧ k / inputs ∉ m.pins.brokenOutputs) ∧
    (scanned.1 = true ↔ ∃ k, scanned.2.isDown k ≠ m.isDown k) ∧
    scanned.2.pins.low = [] ∧
    scanned.2.pins.takeCalls.1 =
      m.pins.takeCalls.1 ++ (List.range outputs).flatMap (scanCalls inputs m.settle) := by
  intro m scanned
  have h : Ready m := ready_after uses
  have hscan := h.scan_eq
  refine ⟨fun k => ?_, ?_, ?_, ?_⟩
  · rw [← mem_down_after, h.isDown_scan k, sees, h.wired, Nat.div_add_mod']
    simp only [Bool.and_eq_true, Bool.not_eq_true', List.contains_eq_mem, decide_eq_true_eq,
      decide_eq_false_iff_not]
    tauto
  · exact h.changed_scan
  · show m.scan.2.pins.low = []
    rw [hscan]
    exact h.high
  · show m.scan.2.pins.calls.reverse = _
    rw [hscan]
    simp [record, takeCalls]

end Bench

end Chordboard
