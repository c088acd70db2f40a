import Chordboard.Pattern

/-!
# Chord records

A record names the chord of one dictionary entry. It is a tag byte followed
by the bytes of the chord. The low four bits of the tag are the distance
from the sequence number of the record before it, counted from zero at the
first record; the high four bits are the anagram number.

A stream of records ends where the next chord is blank, where the bytes
that are left do not make up a record, or where no bytes are left. What
stands after the end is never looked at.
-/

namespace Chordboard

/-- One dictionary entry: its chord, its anagram number, and the number of its
sequence within the length class. -/
structure Record (B : Nat) where
  seq : Nat
  anagram : Nat
  chord : Pattern B
deriving DecidableEq

namespace Record

variable {B : Nat}

/-! ## Tags -/

def tagBytes : Nat := 1
def distanceMask : UInt8 := 0x0f
def anagramShift : UInt8 := 4

/-- The tag of a distance and an anagram number, of which only the low four
bits count. -/
def tag (distance anagram : UInt8) : UInt8 :=
  distance &&& distanceMask ||| anagram <<< anagramShift

def tagDistance (tag : UInt8) : UInt8 := tag &&& distanceMask

def tagAnagram (tag : UInt8) : UInt8 := tag >>> anagramShift

/-! ## Streams -/

/-- Reads the records of a stream that goes on after sequence number `seq`. -/
def readFrom (B seq : Nat) : List UInt8 → List (Record B)
  | [] => []
  | tag :: rest =>
      let bytes := rest.take B
      let chord := Pattern.ofBytes B bytes
      if bytes.length < B ∨ chord.isBlank then []
      else
        let r : Record B := ⟨seq + (tagDistance tag).toNat, (tagAnagram tag).toNat, chord⟩
        r :: readFrom B r.seq (rest.drop B)
termination_by stream => stream.length
decreasing_by simp only [List.length_drop, List.length_cons]; omega

def readAll (B : Nat) (stream : List UInt8) : List (Record B) :=
  readFrom B 0 stream

/-! ## Reading on request -/

/-- A reader of a stream: the sequence number of the record before, and the
bytes that are left. -/
structure Reader where
  seq : Nat
  bytes : List UInt8
deriving DecidableEq, Repr

namespace Reader

def ofStream (stream : List UInt8) : Reader := ⟨0, stream⟩

/-- Asks for one record more. A reader that finds none drops the bytes that are
left. -/
def next (B : Nat) (reader : Reader) : Option (Record B) × Reader :=
  match reader.bytes with
  | [] => (none, reader)
  | tag :: rest =>
      let bytes := rest.take B
      let chord := Pattern.ofBytes B bytes
      if bytes.length < B ∨ chord.isBlank then (none, { reader with bytes := [] })
      else
        let r : Record B := ⟨reader.seq + (tagDistance tag).toNat, (tagAnagram tag).toNat, chord⟩
        (some r, ⟨r.seq, rest.drop B⟩)

/-- What request number `n` gets, the first one being number zero. -/
def answer (B : Nat) : (n : Nat) → Reader → Option (Record B)
  | 0, reader => (reader.next B).1
  | n + 1, reader => answer B n (reader.next B).2

end Reader

/-! ## Writing -/

/-- Writes one record that follows sequence number `seq`. -/
def write (seq : Nat) (r : Record B) : List UInt8 :=
  tag (UInt8.ofNat (r.seq - seq)) (UInt8.ofNat r.anagram) :: r.chord.toBytes

/-- Writes records that follow sequence number `seq`. -/
def writeFrom (seq : Nat) : List (Record B) → List UInt8
  | [] => []
  | r :: rs => r.write seq ++ writeFrom r.seq rs

@[simp] theorem readFrom_nil (seq : Nat) : readFrom B seq [] = [] := by
  rw [readFrom]

@[simp] theorem length_write (seq : Nat) (r : Record B) :
    (r.write seq).length = tagBytes + B := by
  simp [write, tagBytes, Nat.add_comm]

/-- A record is only read where its chord has a switch. -/
theorem isBlank_of_mem_readFrom {seq : Nat} {stream : List UInt8} {r : Record B}
    (h : r ∈ readFrom B seq stream) : r.chord.isBlank = false := by
  fun_induction readFrom B seq stream with
  | case1 => cases h
  | case2 => cases h
  | case3 seq tag rest bytes chord hgo first ih =>
      rcases List.mem_cons.1 h with rfl | h
      · exact Bool.eq_false_iff.2 fun hb => hgo (Or.inr hb)
      · exact ih h

end Record

end Chordboard
