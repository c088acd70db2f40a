import Chordboard.Key
import Chordboard.Packing

/-!
# Sequence tables

The key sequences of one length class stand one after the other in a table
of bytes. A key takes one byte, or two bytes when it is followed by its
modifiers, or six bits when the table is packed. Sequence number `seq` of a
class of `length` keys therefore starts at key number `seq * length`.

A sequence that is not wholly in its table reads as no keys, and so does
every sequence of a class with more than `maxKeys` keys.

The numbers here have no bound. A machine computes them in words, which is
the same as long as they fit (`Encoding.readWords_eq`).
-/

namespace Chordboard

/-- How the keys of a table are stored. -/
inductive Encoding where
  /-- One byte for each key. -/
  | codes
  /-- A byte for the key and a byte for its modifiers. -/
  | codesWithMods
  /-- Six bits for each key. -/
  | packed
deriving DecidableEq, Repr

namespace Encoding

/-- The `count` bytes from `start`, or none if the table ends before. -/
def slice (table : List UInt8) (start count : Nat) : List UInt8 :=
  if start + count ≤ table.length then (table.drop start).take count else []

/-- The keys of pairs of a code and a modifier byte. -/
def keyPairs : List UInt8 → List Key
  | code :: mods :: rest => ⟨code, mods⟩ :: keyPairs rest
  | _ => []

def unpackSequence (table : List UInt8) (length seq : Nat) : List Key :=
  let index := seq * length
  match Packing.unpackKeys? length index (table.drop (Packing.startByte index)) with
  | some list => list.map Key.plain
  | none => []

/-- The keys of sequence number `seq` in the table of a length class. -/
def readSequence (encoding : Encoding) (table : List UInt8) (length seq : Nat) : List Key :=
  if maxKeys < length then []
  else
    match encoding with
    | .codes => (slice table (seq * length) length).map Key.plain
    | .codesWithMods => keyPairs (slice table (seq * (length * 2)) (length * 2))
    | .packed => unpackSequence table length seq

/-! ## Lengths -/

theorem length_slice (table : List UInt8) (start count : Nat) :
    slice table start count = [] ∨ (slice table start count).length = count := by
  unfold slice
  split
  · right; simp only [List.length_take, List.length_drop]; omega
  · exact Or.inl rfl

theorem length_keyPairs (bytes : List UInt8) : (keyPairs bytes).length = bytes.length / 2 := by
  fun_induction keyPairs bytes with
  | case1 code mods rest ih => simp only [List.length_cons, ih]; omega
  | case2 bytes h =>
      match bytes, h with
      | [], _ => rfl
      | [_], _ => simp
      | a :: b :: rest, h => exact absurd rfl (h a b rest)

/-- A sequence that can be read has as many keys as its class says. -/
theorem length_readSequence (encoding : Encoding) (table : List UInt8) (length seq : Nat) :
    encoding.readSequence table length seq = [] ∨
      (encoding.readSequence table length seq).length = length ∧ length ≤ maxKeys := by
  unfold readSequence
  split
  · exact Or.inl rfl
  · rename_i hle
    have hle := Nat.le_of_not_lt hle
    cases encoding with
    | codes =>
        rcases length_slice table (seq * length) length with h | h
        · left; simp [h]
        · right; simp [h, hle]
    | codesWithMods =>
        rcases length_slice table (seq * (length * 2)) (length * 2) with h | h
        · left; simp [h, keyPairs]
        · right; simp [length_keyPairs, h, hle]
    | packed =>
        simp only [unpackSequence]
        split
        · rename_i list h
          right; simp [Packing.length_of_unpackKeys? h, hle]
        · exact Or.inl rfl

end Encoding

end Chordboard
