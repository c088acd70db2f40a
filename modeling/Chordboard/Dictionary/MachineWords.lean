import Chordboard.Dictionary.Sequence
import Mathlib.Algebra.Group.Nat.Defs

/-!
# Sequences numbered by machine words

A machine finds a sequence in its table by words of some width: the length
of the class, the number of the sequence, and the numbers of its first key
and of the one after its last, which it works out from these two. Numbers
that do not fit into a word wrap around.

`readWords` reads a sequence as such a machine does. It comes to
`readSequence`, which knows no width, as long as all of these numbers fit
(`readWords_eq`).
-/

namespace Chordboard

namespace Encoding

variable {width : Nat}

/-- The keys, unless they are too many for a sequence. -/
def capped (keys : List Key) : List Key :=
  if keys.length ≤ maxKeys then keys else []

/-- The bytes from `start` to before `stop`, or none if they are not all in the
table. -/
def bytesBetween (table : List UInt8) (start stop : BitVec width) : List UInt8 :=
  if start ≤ stop ∧ stop.toNat ≤ table.length then
    (table.drop start.toNat).take (stop.toNat - start.toNat)
  else []

/-- The packed keys from number `start` to before number `stop`, or none if they
are not all in the table. -/
def keysBetween (table : List UInt8) (start stop : BitVec width) : List Key :=
  let bytes := table.drop (Packing.startByte start.toNat)
  let codes := Packing.unpackKeys? (stop.toNat - start.toNat) start.toNat bytes
  (codes.getD []).map Key.plain

/-- The keys of sequence number `seq` in the table of a length class, read with
words. -/
def readWords (encoding : Encoding) (table : List UInt8) (length seq : BitVec width) :
    List Key :=
  match encoding with
  | .codes => capped ((bytesBetween table (seq * length) (seq * length + length)).map Key.plain)
  | .codesWithMods =>
      let size := length * BitVec.ofNat width 2
      capped (keyPairs (bytesBetween table (seq * size) (seq * size + size)))
  | .packed => capped (keysBetween table (seq * length) (seq * length + length))

/-- How many places of its table the reader counts for a key: bytes, or packed
keys. -/
def placesPerKey : Encoding → Nat
  | .codes => 1
  | .codesWithMods => 2
  | .packed => 1

/-- The places of a sequence, and the one after them, have numbers that are words. -/
def Fits (encoding : Encoding) (width length seq : Nat) : Prop :=
  (seq + 1) * (length * encoding.placesPerKey) < 2 ^ width

/-! ## Numbers that fit -/

section Fitting

variable {size seq : BitVec width}

theorem toNat_start (fits : (seq.toNat + 1) * size.toNat < 2 ^ width) :
    (seq * size).toNat = seq.toNat * size.toNat := by
  rw [BitVec.toNat_mul, Nat.mod_eq_of_lt]
  rw [Nat.succ_mul] at fits
  omega

theorem toNat_stop (fits : (seq.toNat + 1) * size.toNat < 2 ^ width) :
    (seq * size + size).toNat = seq.toNat * size.toNat + size.toNat := by
  rw [BitVec.toNat_add, toNat_start fits, Nat.mod_eq_of_lt]
  rwa [Nat.succ_mul] at fits

theorem bytesBetween_eq (table : List UInt8) (fits : (seq.toNat + 1) * size.toNat < 2 ^ width) :
    bytesBetween table (seq * size) (seq * size + size) =
      slice table (seq.toNat * size.toNat) size.toNat := by
  have ordered : seq * size ≤ seq * size + size := by
    rw [BitVec.le_def, toNat_start fits, toNat_stop fits]
    exact Nat.le_add_right ..
  unfold bytesBetween slice
  rw [toNat_start fits, toNat_stop fits, Nat.add_sub_cancel_left]
  simp only [ordered, true_and]

theorem keysBetween_eq (table : List UInt8) (fits : (seq.toNat + 1) * size.toNat < 2 ^ width) :
    keysBetween table (seq * size) (seq * size + size) =
      unpackSequence table size.toNat seq.toNat := by
  unfold keysBetween unpackSequence
  rw [toNat_start fits, toNat_stop fits, Nat.add_sub_cancel_left]
  dsimp only
  cases Packing.unpackKeys? size.toNat (seq.toNat * size.toNat)
    (table.drop (Packing.startByte (seq.toNat * size.toNat))) <;> rfl

end Fitting

/-- A sequence that was read is too long exactly if its class is. -/
theorem capped_eq {keys : List Key} {length : Nat} (h : keys = [] ∨ keys.length = length) :
    capped keys = if maxKeys < length then [] else keys := by
  unfold capped
  rcases h with rfl | rfl
  · simp
  · split <;> split <;> first | rfl | omega

/-- Where the numbers fit, the width of the words makes no difference. -/
theorem readWords_eq {encoding : Encoding} (table : List UInt8) {length seq : BitVec width}
    (fits : encoding.Fits width length.toNat seq.toNat) :
    encoding.readWords table length seq =
      encoding.readSequence table length.toNat seq.toNat := by
  unfold Fits at fits
  unfold readWords readSequence
  cases encoding with
  | codes =>
      rw [placesPerKey, Nat.mul_one] at fits
      dsimp only
      rw [bytesBetween_eq table fits]
      refine capped_eq ?_
      rw [List.map_eq_nil_iff, List.length_map]
      exact length_slice ..
  | codesWithMods =>
      rw [placesPerKey] at fits
      have hsize : (length * BitVec.ofNat width 2).toNat = length.toNat * 2 := by
        have hle := Nat.le_mul_of_pos_left (length.toNat * 2) (Nat.succ_pos seq.toNat)
        rw [BitVec.toNat_mul, BitVec.toNat_ofNat, Nat.mul_mod_mod, Nat.mod_eq_of_lt]
        exact Nat.lt_of_le_of_lt hle fits
      dsimp only
      rw [bytesBetween_eq table (by rwa [hsize]), hsize]
      refine capped_eq ?_
      rw [length_keyPairs]
      rcases length_slice table (seq.toNat * (length.toNat * 2)) (length.toNat * 2) with h | h
      · rw [h]
        exact Or.inl rfl
      · rw [h]
        exact Or.inr (Nat.mul_div_cancel _ Nat.two_pos)
  | packed =>
      rw [placesPerKey, Nat.mul_one] at fits
      dsimp only
      rw [keysBetween_eq table fits]
      refine capped_eq ?_
      unfold unpackSequence
      dsimp only
      split
      · rename_i list hlist
        rw [List.length_map]
        exact Or.inr (Packing.length_of_unpackKeys? hlist)
      · exact Or.inl rfl

end Encoding

end Chordboard
