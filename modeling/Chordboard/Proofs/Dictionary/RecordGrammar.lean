import Chordboard.Proofs.Dictionary.RecordStreams

/-!
# The grammar of record streams

A stream is records that fit their tags, one behind the other, and then a tail at whose start no
record can be read. `Dictionary/RecordStreams` reads what was written; here any stream at all is
split into the records that are read of it and its tail (`exists_tail`), and the two together are
the grammar (`readAll_eq_iff`).

A `Reader` hands out the records of a stream on request. Its answers are the records in their order
and nothing after them (`Reader.answer_eq`), even where there are more bytes behind the end.

`readAll_grammar` puts this together. For the way from a list to its stream it takes the records as
a stream spells them, each with its distance from the one before (`Spelled`); the sequence numbers
that are read are then the sums of the distances.
-/

namespace Chordboard

namespace Record

variable {B : Nat}

/-! ## Tags of a stream -/

/-- Every byte is the tag of its halves. -/
theorem tag_halves (byte : UInt8) : tag (tagDistance byte) (tagAnagram byte) = byte := by
  apply UInt8.toBitVec_inj.1
  ext i hi
  interval_cases i <;> simp [tag, tagDistance, tagAnagram, distanceMask, anagramShift]

theorem toNat_tagDistance_lt (byte : UInt8) : (tagDistance byte).toNat < halfTag := by
  rw [tagDistance, UInt8.toNat_and]
  exact Nat.and_lt_two_pow _ (show distanceMask.toNat < 2 ^ 4 by decide)

theorem toNat_tagAnagram_lt (byte : UInt8) : (tagAnagram byte).toNat < halfTag := by
  have hbyte : byte.toNat < 256 := byte.toNat_lt
  rw [tagAnagram, UInt8.toNat_shiftRight]
  show byte.toNat >>> 4 < 16
  rw [Nat.shiftRight_eq_div_pow]
  omega

@[simp] theorem length_writeFrom (seq : Nat) (rs : List (Record B)) :
    (writeFrom seq rs).length = rs.length * (tagBytes + B) := by
  induction rs generalizing seq with
  | nil => simp [writeFrom]
  | cons r rs ih =>
      rw [writeFrom, List.length_append, length_write, ih, List.length_cons, Nat.succ_mul,
        Nat.add_comm]

/-- The record that a tag and a chord spell can be written again, and gives the same bytes. -/
theorem write_read (seq : Nat) (byte : UInt8) {bytes : List UInt8} (hlen : bytes.length = B)
    (hchord : (Pattern.ofBytes B bytes).isBlank = false) {r : Record B}
    (hr : r = ⟨seq + (tagDistance byte).toNat, (tagAnagram byte).toNat, Pattern.ofBytes B bytes⟩) :
    r.Writable seq ∧ r.write seq = byte :: bytes := by
  subst hr
  have hdistance : seq + (tagDistance byte).toNat - seq = (tagDistance byte).toNat :=
    Nat.add_sub_cancel_left _ _
  refine ⟨⟨Nat.le_add_right _ _, ?_, toNat_tagAnagram_lt byte, hchord⟩, ?_⟩
  · rw [hdistance]
    exact toNat_tagDistance_lt byte
  · simp only [write]
    rw [hdistance, UInt8.ofNat_toNat, UInt8.ofNat_toNat, tag_halves, Pattern.toBytes_ofBytes hlen]

/-- What is read is written in front of the stream, and no record is left behind it. -/
theorem exists_tail (B seq : Nat) (stream : List UInt8) :
    ∃ tail, stream = writeFrom seq (readFrom B seq stream) ++ tail ∧
      WritableFrom seq (readFrom B seq stream) ∧ EndsStream B tail := by
  fun_induction readFrom B seq stream with
  | case1 seq => exact ⟨[], rfl, trivial, trivial⟩
  | case2 seq byte rest bytes chord hstop =>
      refine ⟨byte :: rest, rfl, trivial, ?_⟩
      rcases hstop with hshort | hblank
      · left
        simp only [bytes, List.length_take] at hshort
        omega
      · exact Or.inr hblank
  | case3 seq byte rest bytes chord hgo r ih =>
      obtain ⟨hshort, hblank⟩ := not_or.1 hgo
      have hlen : bytes.length = B := by
        simp only [bytes, List.length_take] at hshort ⊢
        omega
      obtain ⟨hwritable, hwrite⟩ := write_read seq byte hlen (Bool.eq_false_iff.2 hblank)
        (r := r) rfl
      obtain ⟨tail, htail, hrest, hends⟩ := ih
      refine ⟨tail, ?_, ⟨hwritable, hrest⟩, hends⟩
      rw [writeFrom, hwrite, List.append_assoc, ← htail]
      show byte :: rest = byte :: (rest.take B ++ rest.drop B)
      rw [List.take_append_drop]

/-- **The grammar of streams.** -/
theorem readAll_eq_iff {stream : List UInt8} {rs : List (Record B)} :
    readAll B stream = rs ↔
      ∃ tail, stream = writeFrom 0 rs ++ tail ∧ WritableFrom 0 rs ∧ EndsStream B tail := by
  constructor
  · rintro rfl
    exact exists_tail B 0 stream
  · rintro ⟨tail, rfl, hwritable, hends⟩
    exact readFrom_writeFrom hwritable hends

/-! ## Request by request -/

/-- A reader finds what is read of its stream, and then has the rest of the stream left. -/
theorem readFrom_eq_next (reader : Reader) :
    readFrom B reader.seq reader.bytes =
      match reader.next B with
      | (none, _) => []
      | (some r, after) => r :: readFrom B after.seq after.bytes := by
  obtain ⟨seq, bytes⟩ := reader
  cases bytes with
  | nil => simp [Reader.next]
  | cons byte rest =>
      rw [readFrom]
      simp only [Reader.next]
      split <;> rfl

/-- A reader that finds nothing has nothing left. -/
theorem Reader.bytes_of_next {reader after : Reader} (h : reader.next B = (none, after)) :
    after.bytes = [] := by
  obtain ⟨seq, bytes⟩ := reader
  cases bytes with
  | nil =>
      cases h
      rfl
  | cons byte rest =>
      simp only [Reader.next] at h
      split at h
      · cases h
        rfl
      · cases h

/-- **Request by request.** A reader gets the records one after another, and none ever after. -/
theorem Reader.answer_eq (reader : Reader) (n : Nat) :
    reader.answer B n = (readFrom B reader.seq reader.bytes)[n]? := by
  induction n generalizing reader with
  | zero =>
      rw [readFrom_eq_next]
      unfold Reader.answer
      rcases reader.next B with ⟨_ | r, after⟩ <;> rfl
  | succ n ih =>
      rw [readFrom_eq_next, Reader.answer, ih]
      rcases hnext : reader.next B with ⟨_ | r, after⟩
      · dsimp only
        rw [Reader.bytes_of_next hnext]
        simp
      · rfl

/-! ## What follows the end -/

/-- Where a whole record ends a stream, the bytes behind it are free. -/
theorem endsStream_take_append {tail : List UInt8} (h : EndsStream B tail)
    (hlong : tagBytes + B ≤ tail.length) (after : List UInt8) :
    EndsStream B (tail.take (tagBytes + B) ++ after) := by
  rw [tagBytes, Nat.add_comm] at hlong ⊢
  cases tail with
  | nil => simp at hlong
  | cons byte rest =>
      have hchord : (rest.take B).length = B := by simpa using hlong
      rcases h with hshort | hblank
      · simp only [List.length_cons] at hlong
        omega
      · have htake : (rest.take B ++ after).take B = rest.take B := List.take_left' hchord
        right
        show (Pattern.ofBytes B ((rest.take B ++ after).take B)).isBlank = true
        rwa [htake]

/-! ## Distances -/

/-- A record as a stream spells it, by its distance from the record before. -/
structure Spelled (B : Nat) where
  distance : Nat
  anagram : Nat
  chord : Pattern B
deriving DecidableEq

namespace Spelled

/-- The record fits into a tag and a chord. -/
structure Fits (s : Spelled B) : Prop where
  distance_lt : s.distance < halfTag
  anagram_lt : s.anagram < halfTag
  not_blank : s.chord.isBlank = false

instance (s : Spelled B) : Decidable s.Fits :=
  decidable_of_iff (s.distance < halfTag ∧ s.anagram < halfTag ∧ s.chord.isBlank = false)
    ⟨fun ⟨a, b, c⟩ => ⟨a, b, c⟩, fun ⟨a, b, c⟩ => ⟨a, b, c⟩⟩

/-- A tag and the bytes of the chord. -/
def toBytes (s : Spelled B) : List UInt8 :=
  tag (UInt8.ofNat s.distance) (UInt8.ofNat s.anagram) :: s.chord.toBytes

/-- The records that are spelled after sequence number `seq`: the sequence number of each is the
sum of the distances up to it. -/
def recordsFrom (seq : Nat) (spelled : List (Spelled B)) : List (Record B) :=
  spelled.mapIdx fun n s =>
    ⟨seq + ((spelled.take (n + 1)).map distance).sum, s.anagram, s.chord⟩

theorem recordsFrom_cons (seq : Nat) (s : Spelled B) (spelled : List (Spelled B)) :
    recordsFrom seq (s :: spelled) =
      ⟨seq + s.distance, s.anagram, s.chord⟩ :: recordsFrom (seq + s.distance) spelled := by
  simp [recordsFrom, List.mapIdx_cons, Nat.add_assoc]

theorem writeFrom_recordsFrom (seq : Nat) (spelled : List (Spelled B)) :
    writeFrom seq (recordsFrom seq spelled) = spelled.flatMap toBytes := by
  induction spelled generalizing seq with
  | nil => rfl
  | cons s spelled ih =>
      rw [recordsFrom_cons, writeFrom, ih, List.flatMap_cons]
      simp [write, toBytes]

theorem writableFrom_recordsFrom {spelled : List (Spelled B)} (seq : Nat)
    (h : ∀ s ∈ spelled, s.Fits) : WritableFrom seq (recordsFrom seq spelled) := by
  induction spelled generalizing seq with
  | nil => trivial
  | cons s spelled ih =>
      have hs := h s List.mem_cons_self
      rw [recordsFrom_cons]
      refine ⟨⟨Nat.le_add_right _ _, ?_, hs.anagram_lt, hs.not_blank⟩,
        ih _ fun s' hs' => h s' (List.mem_cons_of_mem s hs')⟩
      simpa using hs.distance_lt

end Spelled

/-- **Streams of records.** What is read of a stream is a list of records that fit their tags, and
written again they are the bytes at the start of the stream; no record can be read behind them. A
reader gets them one by one and then nothing, and where a whole record ends the stream, the bytes
behind that one play no part. The other way around, records that are spelled in front of such a
tail are read as they were spelled. -/
theorem readAll_grammar (B : Nat) (stream : List UInt8) :
    (∃ tail, stream = writeFrom 0 (readAll B stream) ++ tail ∧
      (writeFrom 0 (readAll B stream)).length = (readAll B stream).length * (tagBytes + B) ∧
      WritableFrom 0 (readAll B stream) ∧ EndsStream B tail ∧
      (∀ n, (Reader.ofStream stream).answer B n = (readAll B stream)[n]?) ∧
      (tagBytes + B ≤ tail.length → ∀ after n,
        (Reader.ofStream (writeFrom 0 (readAll B stream) ++
          (tail.take (tagBytes + B) ++ after))).answer B n = (readAll B stream)[n]?)) ∧
    (∀ (spelled : List (Spelled B)) (tail : List UInt8), (∀ s ∈ spelled, s.Fits) →
      EndsStream B tail → stream = spelled.flatMap Spelled.toBytes ++ tail →
      readAll B stream = Spelled.recordsFrom 0 spelled) := by
  constructor
  · obtain ⟨tail, hstream, hwritable, hends⟩ := readAll_eq_iff.1 (rfl : readAll B stream = _)
    refine ⟨tail, hstream, length_writeFrom _ _, hwritable, hends, Reader.answer_eq _, ?_⟩
    intro hlong after n
    have hcut : readAll B (writeFrom 0 (readAll B stream) ++
        (tail.take (tagBytes + B) ++ after)) = readAll B stream :=
      readAll_eq_iff.2 ⟨_, rfl, hwritable, endsStream_take_append hends hlong after⟩
    rw [Reader.answer_eq]
    exact congrArg (·[n]?) hcut
  · rintro spelled tail hfits hends rfl
    rw [← Spelled.writeFrom_recordsFrom 0]
    exact readAll_eq_iff.2 ⟨tail, rfl, Spelled.writableFrom_recordsFrom 0 hfits, hends⟩

/-- Two records of one-byte chords, a blank chord, and a record that is never reached. -/
def endedEarly : List UInt8 := [0x01, 0x01, 0x32, 0x02, 0x77, 0x00, 0x11, 0x04]

theorem readAll_endedEarly :
    readAll 1 endedEarly =
        [⟨1, 0, Pattern.ofBytes 1 [0x01]⟩, ⟨3, 3, Pattern.ofBytes 1 [0x02]⟩] ∧
      (∀ n, 2 ≤ n → (Reader.ofStream endedEarly).answer 1 n = none) ∧
      ∀ after n, (Reader.ofStream ([0x01, 0x01, 0x32, 0x02, 0x77, 0x00] ++ after)).answer 1 n =
        (readAll 1 endedEarly)[n]? := by
  obtain ⟨⟨tail, hstream, -, -, -, hanswer, hafter⟩, hspelled⟩ := readAll_grammar 1 endedEarly
  have hread := hspelled [⟨1, 0, Pattern.ofBytes 1 [0x01]⟩, ⟨2, 3, Pattern.ofBytes 1 [0x02]⟩]
    [0x77, 0x00, 0x11, 0x04] (by decide) (Or.inr (by decide)) (by decide)
  have htail : tail = [0x77, 0x00, 0x11, 0x04] := by
    rw [hread] at hstream
    exact List.append_cancel_left (hstream.symm.trans (by decide))
  refine ⟨hread.trans (by decide), ?_, ?_⟩
  · intro n hn
    rw [hanswer, hread]
    exact List.getElem?_eq_none hn
  · intro after n
    rw [← hafter (by rw [htail]; decide) after n, hread, htail]
    rfl

end Record
end Chordboard
