import Chordboard.Dictionary.Record
import Mathlib.Tactic.IntervalCases

/-!
# Record streams read back

The writer of `Dictionary/Record` and the reader beside it are inverse to
each other on records that fit their tags. A record fits after sequence
number `seq` if its distance from `seq` and its anagram number each fit into
half a tag, and if its chord is not blank (`Writable`).

The reader stops at any stream that does not start with a record
(`EndsStream`), a blank chord among them, so what stands behind the last
record is free.
-/

namespace Chordboard

namespace Record

variable {B : Nat}

/-! ## Tags -/

/-- Each half of a tag holds a number below this one. -/
def halfTag : Nat := 16

theorem toNat_tagDistance_tag (distance anagram : UInt8) :
    (tagDistance (tag distance anagram)).toNat = distance.toNat % halfTag := by
  have hmask : tagDistance (tag distance anagram) = distance &&& distanceMask := by
    apply UInt8.toBitVec_inj.1
    ext i hi
    interval_cases i <;> simp [tagDistance, tag, distanceMask, anagramShift]
  rw [hmask, UInt8.toNat_and]
  exact Nat.and_two_pow_sub_one_eq_mod distance.toNat 4

theorem toNat_tagAnagram_tag (distance anagram : UInt8) :
    (tagAnagram (tag distance anagram)).toNat = anagram.toNat % halfTag := by
  have hmask : tagAnagram (tag distance anagram) = anagram &&& distanceMask := by
    apply UInt8.toBitVec_inj.1
    ext i hi
    interval_cases i <;> simp [tagAnagram, tag, distanceMask, anagramShift]
  rw [hmask, UInt8.toNat_and]
  exact Nat.and_two_pow_sub_one_eq_mod anagram.toNat 4

theorem toNat_ofNat_of_lt_halfTag {k : Nat} (h : k < halfTag) :
    (UInt8.ofNat k).toNat % halfTag = k := by
  rw [UInt8.toNat_ofNat', Nat.mod_eq_of_lt (Nat.lt_of_lt_of_le h (by decide)),
    Nat.mod_eq_of_lt h]

/-! ## Where a stream ends -/

/-- No record can be read at the start of the bytes. -/
def EndsStream (B : Nat) : List UInt8 → Prop
  | [] => True
  | _ :: rest => rest.length < B ∨ (Pattern.ofBytes B (rest.take B)).isBlank = true

/-- The record with a blank chord that ends a stream, its tag being free. -/
def endMark (B : Nat) (tag : UInt8) : List UInt8 :=
  tag :: (Pattern.blank : Pattern B).toBytes

theorem endsStream_endMark (tag : UInt8) (rest : List UInt8) :
    EndsStream B (endMark B tag ++ rest) := by
  have htake : ((Pattern.blank : Pattern B).toBytes ++ rest).take B =
      (Pattern.blank : Pattern B).toBytes :=
    List.take_left' (Pattern.length_toBytes _)
  have hblank : (Pattern.ofBytes B
      (((Pattern.blank : Pattern B).toBytes ++ rest).take B)).isBlank = true := by
    rw [htake, Pattern.ofBytes_toBytes, Pattern.isBlank_iff]
  exact Or.inr hblank

theorem readFrom_of_endsStream {seq : Nat} {stream : List UInt8} (h : EndsStream B stream) :
    readFrom B seq stream = [] := by
  cases stream with
  | nil => rw [readFrom]
  | cons tag rest =>
      have hstop : (rest.take B).length < B ∨ (Pattern.ofBytes B (rest.take B)).isBlank = true := by
        rcases h with h | h
        · exact Or.inl (Nat.lt_of_le_of_lt (List.length_take_le' ..) h)
        · exact Or.inr h
      rw [readFrom]
      exact if_pos hstop

/-! ## Writing and reading -/

/-- The record can be written after sequence number `seq`. -/
structure Writable (seq : Nat) (r : Record B) : Prop where
  seq_le : seq ≤ r.seq
  distance_lt : r.seq - seq < halfTag
  anagram_lt : r.anagram < halfTag
  not_blank : r.chord.isBlank = false

instance (seq : Nat) (r : Record B) : Decidable (r.Writable seq) :=
  decidable_of_iff (seq ≤ r.seq ∧ r.seq - seq < halfTag ∧ r.anagram < halfTag ∧
      r.chord.isBlank = false)
    ⟨fun ⟨a, b, c, d⟩ => ⟨a, b, c, d⟩, fun ⟨a, b, c, d⟩ => ⟨a, b, c, d⟩⟩

/-- Each record can be written after the one before it, the first one after
sequence number `seq`. -/
def WritableFrom (seq : Nat) : List (Record B) → Prop
  | [] => True
  | r :: rs => r.Writable seq ∧ WritableFrom r.seq rs

instance decidableWritableFrom (seq : Nat) : (rs : List (Record B)) →
    Decidable (WritableFrom seq rs)
  | [] => inferInstanceAs (Decidable True)
  | r :: rs =>
      have := decidableWritableFrom r.seq rs
      inferInstanceAs (Decidable (r.Writable seq ∧ WritableFrom r.seq rs))

/-- A record in front of a stream is read first. -/
theorem readFrom_write {seq : Nat} {r : Record B} (h : r.Writable seq) (rest : List UInt8) :
    readFrom B seq (r.write seq ++ rest) = r :: readFrom B r.seq rest := by
  have htake : (r.chord.toBytes ++ rest).take B = r.chord.toBytes :=
    List.take_left' (Pattern.length_toBytes _)
  have hdrop : (r.chord.toBytes ++ rest).drop B = rest :=
    List.drop_left' (Pattern.length_toBytes _)
  have hgo : ¬(r.chord.toBytes.length < B ∨ r.chord.isBlank = true) := by
    rw [Pattern.length_toBytes, h.not_blank]
    simp
  have hseq : seq + (r.seq - seq) = r.seq := Nat.add_sub_cancel' h.seq_le
  rw [write, List.cons_append, readFrom]
  simp only [htake, hdrop, Pattern.ofBytes_toBytes]
  rw [if_neg hgo, toNat_tagDistance_tag, toNat_tagAnagram_tag,
    toNat_ofNat_of_lt_halfTag h.distance_lt, toNat_ofNat_of_lt_halfTag h.anagram_lt, hseq]

/-- **Round trip of a stream.** Records that fit their tags are read as they
were written, whatever bytes follow the end of the stream. -/
theorem readFrom_writeFrom {seq : Nat} {rs : List (Record B)} {tail : List UInt8}
    (h : WritableFrom seq rs) (htail : EndsStream B tail) :
    readFrom B seq (writeFrom seq rs ++ tail) = rs := by
  induction rs generalizing seq with
  | nil => exact readFrom_of_endsStream htail
  | cons r rs ih => rw [writeFrom, List.append_assoc, readFrom_write h.1, ih h.2]

end Record

end Chordboard
