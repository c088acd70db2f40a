import Chordboard.Dictionary.Record
import Chordboard.Dictionary.Sequence

/-!
# Dictionaries

A dictionary maps chords to key sequences. Its entries are sorted into
length classes: class `l` has a stream of chord records and the table with
their sequences of `l` keys.

Several entries may share a chord and differ in the anagram number. An
entry for the chord and the anagram asked for is found first; failing that,
the only entry of a chord is found whatever its anagram number
(`match?`).
-/

namespace Chordboard

/-- A dictionary: for each length class the record stream and the sequence
table. -/
structure Dictionary where
  records : List (List UInt8)
  sequences : List (List UInt8)
  encoding : Encoding

namespace Dictionary

variable {B : Nat}

/-- All records, each with its length class, the shortest class first. -/
def entries (B : Nat) (d : Dictionary) : List (Nat × Record B) :=
  d.records.zipIdx.flatMap fun (stream, length) =>
    (Record.readAll B stream).map (length, ·)

def entriesOf (d : Dictionary) (chord : Pattern B) : List (Nat × Record B) :=
  (d.entries B).filter fun e => e.2.chord == chord

def sole? {α : Type} : List α → Option α
  | [a] => some a
  | _ => none

theorem sole?_eq_some_iff {α : Type} {l : List α} {a : α} : sole? l = some a ↔ l = [a] := by
  match l with
  | [] => simp [sole?]
  | [b] => simp [sole?]
  | b :: c :: l => simp [sole?]

/-- The length class and the record that stand for a chord and an anagram
number. -/
def match? (d : Dictionary) (chord : Pattern B) (anagram : Nat) : Option (Nat × Record B) :=
  let found := d.entriesOf chord
  (found.find? fun e => e.2.anagram == anagram).or (sole? found)

/-- The keys of sequence `seq` of a length class; a class without a table has
none. -/
def keysAt (d : Dictionary) (length seq : Nat) : List Key :=
  match d.sequences[length]? with
  | some table => d.encoding.readSequence table length seq
  | none => []

/-- The keys of a chord and an anagram number. A record whose sequence reads as
no keys counts as not found. -/
def find? (d : Dictionary) (chord : Pattern B) (anagram : Nat) : Option (List Key) :=
  match d.match? chord anagram with
  | none => none
  | some (length, r) =>
      match d.keysAt length r.seq with
      | [] => none
      | keys => some keys

theorem find?_of_no_match {d : Dictionary} {chord : Pattern B} {anagram : Nat}
    (h : d.match? chord anagram = none) : d.find? chord anagram = none := by
  rw [find?, h]

theorem find?_of_match {d : Dictionary} {chord : Pattern B} {anagram length : Nat} {r : Record B}
    (h : d.match? chord anagram = some (length, r)) :
    d.find? chord anagram =
      if d.keysAt length r.seq = [] then none else some (d.keysAt length r.seq) := by
  rw [find?, h]
  dsimp only
  split <;> simp_all

/-- What is found has at least one key and at most `maxKeys`. -/
theorem length_of_find? {d : Dictionary} {chord : Pattern B} {anagram : Nat} {keys : List Key}
    (h : d.find? chord anagram = some keys) : keys ≠ [] ∧ keys.length ≤ maxKeys := by
  rcases hmatch : d.match? chord anagram with _ | ⟨length, r⟩
  · rw [find?_of_no_match hmatch] at h
    cases h
  · rw [find?_of_match hmatch] at h
    split at h
    · cases h
    · rename_i hne
      cases h
      refine ⟨hne, ?_⟩
      unfold keysAt at hne ⊢
      split
      · rename_i table htable
        rw [htable] at hne
        rcases d.encoding.length_readSequence table length r.seq with h | h
        · exact absurd h hne
        · omega
      · exact Nat.zero_le _

end Dictionary

end Chordboard
