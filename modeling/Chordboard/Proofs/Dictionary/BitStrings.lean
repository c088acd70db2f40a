import Chordboard.Dictionary
import Chordboard.Proofs.Dictionary.PackedKeys

/-!
# Tables as strings of bits

A sequence table is one string of bits, the highest bit of each byte first, and its keys stand in
it one after the other: eight, sixteen or six bits for each (`Encoding.keyWidth`). The reader of
packed keys goes through a table group by group and counts the bytes that it has used up; here it
is compared with the string, which knows nothing of groups (`Packing.unpackKey?_eq`,
`Packing.unpackKeys?_eq`).

A sequence is read exactly if its table holds all of its bits (`Encoding.readSequence_eq`), and
no byte without bits of it matters (`Encoding.readSequence_packed_congr`).
-/

namespace Chordboard

/-! ## Bits of bytes -/

/-- The bits of a byte, the highest first. -/
def byteBits (byte : UInt8) : List Bool :=
  (List.range 8).map fun i => byte.toBitVec.getLsbD (7 - i)

/-- A table as one string of bits, the highest bit of each byte first. -/
def bitString (table : List UInt8) : List Bool := table.flatMap byteBits

/-- The byte that a string of at most eight bits writes, the highest bit
first. -/
def byteOfBits (bits : List Bool) : UInt8 :=
  UInt8.ofBitVec ((BitVec.ofBoolListBE bits).setWidth 8)

/-- Number `index` of the codes of `width` bits that a table holds. -/
def codeAt (width : Nat) (table : List UInt8) (index : Nat) : UInt8 :=
  byteOfBits (((bitString table).drop (width * index)).take width)

@[simp] theorem length_byteBits (byte : UInt8) : (byteBits byte).length = 8 := by
  simp [byteBits]

theorem bitString_cons (byte : UInt8) (table : List UInt8) :
    bitString (byte :: table) = byteBits byte ++ bitString table :=
  List.flatMap_cons

theorem length_bitString (table : List UInt8) : (bitString table).length = 8 * table.length := by
  induction table with
  | nil => rfl
  | cons byte table ih =>
      rw [bitString_cons, List.length_append, length_byteBits, ih, List.length_cons]
      omega

theorem getElem?_bitString (table : List UInt8) (p : Nat) :
    (bitString table)[p]? = table[p / 8]?.map fun b => b.toBitVec.getLsbD (7 - p % 8) := by
  induction table generalizing p with
  | nil => simp [bitString]
  | cons byte table ih =>
      rw [bitString_cons]
      by_cases hp : p < 8
      · rw [List.getElem?_append_left (by simpa using hp), Nat.div_eq_of_lt hp,
          Nat.mod_eq_of_lt hp]
        simp [byteBits, hp]
      · obtain ⟨q, rfl⟩ := Nat.exists_eq_add_of_le' (Nat.le_of_not_lt hp)
        rw [List.getElem?_append_right (by simp), length_byteBits, Nat.add_sub_cancel, ih,
          Nat.add_div_right q (by decide), Nat.add_mod_right]
        rfl

theorem drop_bitString (table : List UInt8) (n : Nat) :
    (bitString table).drop (8 * n) = bitString (table.drop n) := by
  induction n generalizing table with
  | zero => rfl
  | succ n ih =>
      cases table with
      | nil => simp [bitString]
      | cons byte table =>
          have hlen : 8 * (n + 1) = (byteBits byte).length + 8 * n := by
            rw [length_byteBits, Nat.mul_succ, Nat.add_comm]
          rw [bitString_cons, hlen, ← List.drop_drop, List.drop_left]
          exact ih table

theorem byteOfBits_byteBits (b : UInt8) (rest : List Bool) :
    byteOfBits ((byteBits b ++ rest).take 8) = b := by
  apply UInt8.toBitVec_inj.1
  ext i hi
  interval_cases i <;> simp [byteOfBits, byteBits, List.range_succ]

/-- A code is known by the bytes that have bits of it. -/
theorem codeAt_congr {table other : List UInt8} {width index : Nat}
    (h : ∀ i, width * index < 8 * (i + 1) → 8 * i < width * (index + 1) → other[i]? = table[i]?) :
    codeAt width other index = codeAt width table index := by
  have hbits : ((bitString other).drop (width * index)).take width =
      ((bitString table).drop (width * index)).take width := by
    apply List.ext_getElem?
    intro j
    simp only [List.getElem?_take, List.getElem?_drop]
    split
    · rename_i hj
      have hsame : other[(width * index + j) / 8]? = table[(width * index + j) / 8]? := by
        apply h
        · omega
        · rw [Nat.mul_succ]
          omega
      rw [getElem?_bitString, getElem?_bitString, hsame]
    · rfl
  rw [codeAt, codeAt, hbits]

/-- A code has as many bits as it is wide. -/
theorem toNat_codeAt_lt (width : Nat) (table : List UInt8) (index : Nat) :
    (codeAt width table index).toNat < 2 ^ width := by
  have hlen : (((bitString table).drop (width * index)).take width).length ≤ width :=
    List.length_take_le ..
  have hbits := (BitVec.ofBoolListBE (((bitString table).drop (width * index)).take width)).isLt
  rw [codeAt, byteOfBits, UInt8.toNat_ofBitVec, BitVec.toNat_setWidth]
  calc _ ≤ _ := Nat.mod_le ..
    _ < _ := hbits
    _ ≤ 2 ^ width := Nat.pow_le_pow_right (by decide) hlen

namespace Packing

/-! ## Packed keys -/

theorem sixBits_first (a : UInt8) (rest : List Bool) :
    byteOfBits ((byteBits a ++ rest).take 6) = a >>> 2 := by
  apply UInt8.toBitVec_inj.1
  ext i hi
  interval_cases i <;> simp [byteOfBits, byteBits, List.range_succ]

theorem sixBits_second (a b : UInt8) (rest : List Bool) :
    byteOfBits (((byteBits a ++ (byteBits b ++ rest)).drop 6).take 6) =
      (a &&& 0x03) <<< 4 ||| b >>> 4 := by
  apply UInt8.toBitVec_inj.1
  ext i hi
  interval_cases i <;> simp [byteOfBits, byteBits, List.range_succ]

theorem sixBits_third (a b c : UInt8) (rest : List Bool) :
    byteOfBits (((byteBits a ++ (byteBits b ++ (byteBits c ++ rest))).drop 12).take 6) =
      (b &&& 0x0f) <<< 2 ||| c >>> 6 := by
  apply UInt8.toBitVec_inj.1
  ext i hi
  interval_cases i <;> simp [byteOfBits, byteBits, List.range_succ]

theorem sixBits_fourth (a b c : UInt8) (rest : List Bool) :
    byteOfBits (((byteBits a ++ (byteBits b ++ (byteBits c ++ rest))).drop 18).take 6) =
      c &&& keyMask := by
  apply UInt8.toBitVec_inj.1
  ext i hi
  interval_cases i <;> simp [byteOfBits, byteBits, List.range_succ, keyMask]

/-- Three bytes further on, the codes are four numbers higher. -/
theorem codeAt_add_four (a b c : UInt8) (table : List UInt8) (index : Nat) :
    codeAt 6 (a :: b :: c :: table) (index + 4) = codeAt 6 table index := by
  have hskip : (bitString (a :: b :: c :: table)).drop (8 * 3) = bitString table :=
    drop_bitString (a :: b :: c :: table) 3
  have hstart : 6 * (index + 4) = 8 * 3 + 6 * index := by omega
  rw [codeAt, codeAt, hstart, ← List.drop_drop, hskip]

/-- There is no key behind the end of a table. -/
theorem unpackKey?_nil (index : Nat) : unpackKey? index [] = none := by
  unfold unpackKey?
  split <;> simp_all

/-- **One key.** From the byte that holds its first bits on, a key is read if the table holds
its six bits, and then it is these bits. The bytes that are used up lead to the next key. -/
theorem unpackKey?_eq : ∀ (table : List UInt8) (index : Nat),
    unpackKey? index (table.drop (startByte index)) =
      if 6 * (index + 1) ≤ 8 * table.length then
        some (codeAt 6 table index, startByte (index + 1) - startByte index)
      else none
  | a :: b :: c :: table, index + 4 => by
      have ih := unpackKey?_eq table index
      have hfits : 6 * (index + 4 + 1) ≤ 8 * (a :: b :: c :: table).length ↔
          6 * (index + 1) ≤ 8 * table.length := by
        simp only [List.length_cons]
        omega
      rw [unpackKey?_add_four, startByte_add_four, show index + 4 + 1 = index + 1 + 4 by omega,
        startByte_add_four, Nat.add_sub_add_right, codeAt_add_four, if_congr hfits rfl rfl, ← ih]
      rfl
  -- A group that is cut off ends the table, so that there is nothing behind it.
  | [], index => by rw [List.drop_nil, unpackKey?_nil, if_neg (by simp)]
  | [a], index + 4 => by
      have hend : [a].drop (startByte (index + 4)) = [] := by
        rw [startByte_add_four]
        rfl
      rw [hend, unpackKey?_nil, if_neg (by simp only [List.length_singleton]; omega)]
  | [a, b], index + 4 => by
      have hend : [a, b].drop (startByte (index + 4)) = [] := by
        rw [startByte_add_four]
        rfl
      rw [hend, unpackKey?_nil, if_neg (by simp only [List.length_cons, List.length_nil]; omega)]
  | [_], 1 => rfl
  | [_], 2 => rfl
  | [_], 3 => rfl
  | [_, _], 2 => rfl
  | [_, _], 3 => rfl
  | a :: table, 0 => by
      have hkey : codeAt 6 (a :: table) 0 = a >>> 2 := sixBits_first a (bitString table)
      rw [if_pos (by simp only [List.length_cons]; omega), hkey]
      rfl
  | a :: b :: table, 1 => by
      have hkey : codeAt 6 (a :: b :: table) 1 = (a &&& 0x03) <<< 4 ||| b >>> 4 :=
        sixBits_second a b (bitString table)
      rw [if_pos (by simp only [List.length_cons]; omega), hkey]
      rfl
  | a :: b :: c :: table, 2 => by
      have hkey : codeAt 6 (a :: b :: c :: table) 2 = (b &&& 0x0f) <<< 2 ||| c >>> 6 :=
        sixBits_third a b c (bitString table)
      rw [if_pos (by simp only [List.length_cons]; omega), hkey]
      rfl
  | a :: b :: c :: table, 3 => by
      have hkey : codeAt 6 (a :: b :: c :: table) 3 = c &&& keyMask :=
        sixBits_fourth a b c (bitString table)
      rw [if_pos (by simp only [List.length_cons]; omega), hkey]
      rfl

/-- **A sequence.** Keys in a row are read if the table holds the bits of the last one. -/
theorem unpackKeys?_eq (table : List UInt8) (count index : Nat) :
    unpackKeys? (count + 1) index (table.drop (startByte index)) =
      if 6 * (index + (count + 1)) ≤ 8 * table.length then
        some ((List.range' index (count + 1)).map (codeAt 6 table))
      else none := by
  induction count generalizing index with
  | zero =>
      rw [unpackKeys?, unpackKey?_eq]
      by_cases hfits : 6 * (index + 1) ≤ 8 * table.length
      · rw [if_pos hfits, if_pos hfits]
        rfl
      · rw [if_neg hfits, if_neg hfits]
  | succ count ih =>
      have hused : startByte index + (startByte (index + 1) - startByte index) =
          startByte (index + 1) :=
        Nat.add_sub_cancel' (startByte_le_succ index)
      have hlast : index + 1 + (count + 1) = index + (count + 1 + 1) := by omega
      rw [unpackKeys?, unpackKey?_eq]
      by_cases hkey : 6 * (index + 1) ≤ 8 * table.length
      · rw [if_pos hkey]
        simp only [List.drop_drop]
        rw [hused, ih (index + 1), hlast]
        by_cases hfits : 6 * (index + (count + 1 + 1)) ≤ 8 * table.length
        · rw [if_pos hfits, if_pos hfits, Option.map_some, List.range'_succ]
          rfl
        · rw [if_neg hfits, if_neg hfits, Option.map_none]
      · rw [if_neg hkey, if_neg (by omega)]

end Packing

namespace Encoding

/-! ## Sequences -/

/-- The number of bits that a key takes in a table. -/
def keyWidth : Encoding → Nat
  | .codes => 8
  | .codesWithMods => 16
  | .packed => 6

/-- Number `index` of the keys that a table holds. -/
def keyAt : Encoding → List UInt8 → Nat → Key
  | .codes, table, index => Key.plain (codeAt 8 table index)
  | .codesWithMods, table, index => ⟨codeAt 8 table (index * 2), codeAt 8 table (index * 2 + 1)⟩
  | .packed, table, index => Key.plain (codeAt 6 table index)

/-- The table holds all bits of sequence number `seq`. -/
def Holds (encoding : Encoding) (table : List UInt8) (length seq : Nat) : Prop :=
  encoding.keyWidth * ((seq + 1) * length) ≤ 8 * table.length

instance (encoding : Encoding) (table : List UInt8) (length seq : Nat) :
    Decidable (encoding.Holds table length seq) :=
  inferInstanceAs (Decidable (_ ≤ _))

/-- A code of eight bits is a byte of the table. -/
theorem codeAt_eight {table : List UInt8} {index : Nat} (h : index < table.length) :
    codeAt 8 table index = table[index] := by
  rw [codeAt, drop_bitString, List.drop_eq_getElem_cons h, bitString_cons, byteOfBits_byteBits]

theorem map_plain_slice (table : List UInt8) (count index : Nat)
    (h : index + count ≤ table.length) :
    ((table.drop index).take count).map Key.plain =
      (List.range' index count).map (keyAt .codes table) := by
  induction count generalizing index with
  | zero => simp
  | succ count ih =>
      have hlt : index < table.length := by omega
      have hkey : keyAt .codes table index = Key.plain table[index] :=
        congrArg Key.plain (codeAt_eight hlt)
      rw [List.drop_eq_getElem_cons hlt, List.take_succ_cons, List.map_cons, List.range'_succ,
        List.map_cons, ih (index + 1) (by omega), hkey]

theorem keyPairs_slice (table : List UInt8) (count index : Nat)
    (h : (index + count) * 2 ≤ table.length) :
    keyPairs ((table.drop (index * 2)).take (count * 2)) =
      (List.range' index count).map (keyAt .codesWithMods table) := by
  induction count generalizing index with
  | zero => simp [keyPairs]
  | succ count ih =>
      have hcode : index * 2 < table.length := by omega
      have hmods : index * 2 + 1 < table.length := by omega
      have hnext : index * 2 + 1 + 1 = (index + 1) * 2 := by omega
      have hkey : keyAt .codesWithMods table index = ⟨table[index * 2], table[index * 2 + 1]⟩ := by
        rw [keyAt, codeAt_eight hcode, codeAt_eight hmods]
      rw [List.drop_eq_getElem_cons hcode, List.drop_eq_getElem_cons hmods, hnext, Nat.succ_mul,
        List.take_succ_cons, List.take_succ_cons, keyPairs, ih (index + 1) (by omega),
        List.range'_succ, List.map_cons, hkey]

theorem holds_iff {encoding : Encoding} {table : List UInt8} {length seq : Nat} :
    encoding.Holds table length seq ↔
      encoding.keyWidth * (seq * length + length) ≤ 8 * table.length := by
  rw [Holds, Nat.succ_mul]

/-- A sequence that is wholly in its table is read key by key. -/
theorem readSequence_of_holds {encoding : Encoding} {table : List UInt8} {length seq : Nat}
    (hmax : length ≤ maxKeys) (h : encoding.Holds table length seq) :
    encoding.readSequence table length seq =
      (List.range' (seq * length) length).map (encoding.keyAt table) := by
  rw [holds_iff] at h
  unfold readSequence
  rw [if_neg (Nat.not_lt.2 hmax)]
  cases encoding with
  | codes =>
      simp only [keyWidth] at h
      have hfits : seq * length + length ≤ table.length := by omega
      simp only [slice, if_pos hfits]
      exact map_plain_slice table length (seq * length) hfits
  | codesWithMods =>
      simp only [keyWidth] at h
      have hfits : seq * length * 2 + length * 2 ≤ table.length := by omega
      simp only [slice, ← Nat.mul_assoc, if_pos hfits]
      exact keyPairs_slice table length (seq * length) (by omega)
  | packed =>
      simp only [keyWidth] at h
      cases length with
      | zero => rfl
      | succ length =>
          simp only [unpackSequence, Packing.unpackKeys?_eq, if_pos h]
          exact List.map_map

/-- A sequence that is not wholly in its table reads as no keys. -/
theorem readSequence_of_not_holds {encoding : Encoding} {table : List UInt8} {length seq : Nat}
    (h : ¬encoding.Holds table length seq) : encoding.readSequence table length seq = [] := by
  rw [holds_iff] at h
  unfold readSequence
  split
  · rfl
  · cases encoding with
    | codes =>
        simp only [keyWidth] at h
        have hcut : ¬seq * length + length ≤ table.length := by omega
        simp [slice, hcut]
    | codesWithMods =>
        simp only [keyWidth] at h
        have hcut : ¬seq * length * 2 + length * 2 ≤ table.length := by omega
        simp only [slice, ← Nat.mul_assoc, if_neg hcut, keyPairs]
    | packed =>
        simp only [keyWidth] at h
        cases length with
        | zero => rfl
        | succ length => simp only [unpackSequence, Packing.unpackKeys?_eq, if_neg h]

/-- **Tables are strings of bits.** A sequence is read if it is not too long and wholly in its
table; then it is the keys of its numbers. -/
theorem readSequence_eq (encoding : Encoding) (table : List UInt8) (length seq : Nat) :
    encoding.readSequence table length seq =
      if length ≤ maxKeys ∧ encoding.Holds table length seq then
        (List.range' (seq * length) length).map (encoding.keyAt table)
      else [] := by
  split
  · rename_i h
    exact readSequence_of_holds h.1 h.2
  · rename_i h
    by_cases hmax : length ≤ maxKeys
    · exact readSequence_of_not_holds fun hholds => h ⟨hmax, hholds⟩
    · unfold readSequence
      rw [if_pos (Nat.lt_of_not_le hmax)]

theorem readSequence_ne_nil_iff {encoding : Encoding} {table : List UInt8} {length seq : Nat} :
    encoding.readSequence table length seq ≠ [] ↔
      0 < length ∧ length ≤ maxKeys ∧ encoding.Holds table length seq := by
  rw [readSequence_eq]
  split
  · rename_i h
    simp [h, Nat.pos_iff_ne_zero]
  · rename_i h
    simp [h]

/-! ## Packed sequences -/

/-- A packed sequence rests on the bytes that have bits of it. -/
theorem readSequence_packed_congr {table other : List UInt8} {length seq : Nat}
    (hpos : 0 < length) (hmax : length ≤ maxKeys) (h : packed.Holds table length seq)
    (hsame : ∀ i, 6 * (seq * length) < 8 * (i + 1) → 8 * i < 6 * ((seq + 1) * length) →
      other[i]? = table[i]?) :
    packed.readSequence other length seq = packed.readSequence table length seq := by
  have hend : (seq + 1) * length = seq * length + length := Nat.succ_mul seq length
  rw [hend] at hsame
  have hother : packed.Holds other length seq := by
    rw [holds_iff] at h ⊢
    simp only [keyWidth] at h ⊢
    -- The byte with the last bit of the sequence is in the one table, and so in the other.
    have hlast := hsame ((6 * (seq * length + length) - 1) / 8) (by omega) (by omega)
    rw [List.getElem?_eq_getElem (l := table) (by omega)] at hlast
    have hlt := (List.getElem?_eq_some_iff.1 hlast).1
    omega
  rw [readSequence_of_holds hmax h, readSequence_of_holds hmax hother]
  apply List.map_congr_left
  intro index hindex
  obtain ⟨hfirst, hlast⟩ := List.mem_range'_1.1 hindex
  apply congrArg Key.plain
  apply codeAt_congr
  intro i hi hi'
  apply hsame
  · omega
  · omega

/-- A packed key is six bits, and has no modifiers. -/
theorem keyAt_packed (table : List UInt8) (index : Nat) :
    keyAt .packed table index =
      ⟨byteOfBits (((bitString table).drop (6 * index)).take 6), 0⟩ := rfl

end Encoding

end Chordboard
