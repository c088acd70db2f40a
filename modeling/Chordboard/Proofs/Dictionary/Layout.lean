import Chordboard.Dictionary
import Chordboard.Proofs.Dictionary.PackedKeys
import Chordboard.Proofs.Dictionary.RecordStreams

/-!
# Laying out a dictionary

What a dictionary holds, before it is bytes: for each length class the
entries in their order, and the words that the entries number. `layOut`
writes it down. The bytes that a reader must not depend on (the tag of the
end mark, whatever follows a stream or a table) are part of the contents, so
that a statement about all contents is one about all such bytes.

`readSequence_writeWords` is the round trip of a sequence table: word number
`seq` is cut out of the table, in each of the three encodings.
-/

namespace Chordboard

/-! ## Contents -/

/-- The entries and words of one length class, and the bytes that do not
matter. -/
structure LengthClass (B : Nat) where
  entries : List (Record B)
  words : List (List Key)
  endTag : UInt8
  afterRecords : List UInt8
  afterWords : List UInt8

/-- What a dictionary holds; class number `l` has the words of `l` keys. -/
structure Contents (B : Nat) where
  encoding : Encoding
  classes : List (LengthClass B)

/-- An entry together with its length class and the keys of its word. -/
structure Entry (B : Nat) where
  length : Nat
  record : Record B
  keys : List Key

namespace Encoding

/-- The key comes back from a table: only pairs keep the modifiers, and six bits
only keep the small codes. -/
def stores : Encoding → Key → Bool
  | .codes, k => k.mods == 0
  | .codesWithMods, _ => true
  | .packed, k => k.mods == 0 && k.code ≤ KeyCode.packedLast

/-- The bytes of a key that is stored with its modifiers. -/
def pair (k : Key) : List UInt8 := [k.code, k.mods]

/-- Writes words one after the other. -/
def writeWords : Encoding → List (List Key) → List UInt8
  | .codes, words => words.flatten.map Key.code
  | .codesWithMods, words => words.flatten.flatMap pair
  | .packed, words => Packing.pack (words.flatten.map Key.code)

end Encoding

namespace LengthClass

variable {B : Nat}

/-- The record stream of the class. -/
def stream (c : LengthClass B) : List UInt8 :=
  Record.writeFrom 0 c.entries ++ (Record.endMark B c.endTag ++ c.afterRecords)

/-- The sequence table of the class. -/
def table (encoding : Encoding) (c : LengthClass B) : List UInt8 :=
  encoding.writeWords c.words ++ c.afterWords

/-- The class can be written as one of words of `length` keys. An empty word
cannot have an entry. -/
structure Fits (encoding : Encoding) (length : Nat) (c : LengthClass B) : Prop where
  writable : Record.WritableFrom 0 c.entries
  seq_lt : ∀ r ∈ c.entries, r.seq < c.words.length
  length_word : ∀ w ∈ c.words, w.length = length
  stored : ∀ w ∈ c.words, ∀ k ∈ w, encoding.stores k = true
  not_empty : length = 0 → c.entries = []

instance (encoding : Encoding) (length : Nat) (c : LengthClass B) :
    Decidable (c.Fits encoding length) :=
  decidable_of_iff (Record.WritableFrom 0 c.entries ∧ (∀ r ∈ c.entries, r.seq < c.words.length) ∧
      (∀ w ∈ c.words, w.length = length) ∧
      (∀ w ∈ c.words, ∀ k ∈ w, encoding.stores k = true) ∧ (length = 0 → c.entries = []))
    ⟨fun ⟨a, b, c, d, e⟩ => ⟨a, b, c, d, e⟩, fun ⟨a, b, c, d, e⟩ => ⟨a, b, c, d, e⟩⟩

end LengthClass

namespace Contents

variable {B : Nat}

/-- The dictionary that holds the contents. -/
def layOut (s : Contents B) : Dictionary where
  records := s.classes.map LengthClass.stream
  sequences := s.classes.map (LengthClass.table s.encoding)
  encoding := s.encoding

/-- Every class can be written, and no word is longer than a sequence can be. -/
structure Fits (s : Contents B) : Prop where
  classes_le : s.classes.length ≤ maxKeys + 1
  classes_fit : ∀ x ∈ s.classes.zipIdx, x.1.Fits s.encoding x.2

instance (s : Contents B) : Decidable s.Fits :=
  decidable_of_iff (s.classes.length ≤ maxKeys + 1 ∧
      ∀ x ∈ s.classes.zipIdx, x.1.Fits s.encoding x.2)
    ⟨fun ⟨a, b⟩ => ⟨a, b⟩, fun ⟨a, b⟩ => ⟨a, b⟩⟩

/-- All entries, the shortest class first, each class in its order. -/
def entries (s : Contents B) : List (Entry B) :=
  s.classes.zipIdx.flatMap fun (c, l) => c.entries.map fun r => ⟨l, r, c.words.getD r.seq []⟩

/-- The keys of the first entry for a chord and an anagram number. Without one,
the keys of the chord's entry, if the chord has no other. -/
def answer? (s : Contents B) (chord : Pattern B) (anagram : Nat) : Option (List Key) :=
  match s.entries.find? fun e => e.record.chord == chord && e.record.anagram == anagram with
  | some e => some e.keys
  | none =>
      match s.entries.filter fun e => e.record.chord == chord with
      | [e] => some e.keys
      | _ => none

end Contents

/-! ## Cutting a word out of a table -/

/-- Of lists of one length in a row, each is cut out by its number. -/
theorem take_drop_flatten {α : Type} {ls : List (List α)} {m : Nat}
    (hm : ∀ l ∈ ls, l.length = m) (rest : List α) {i : Nat} (h : i < ls.length) :
    ((ls.flatten ++ rest).drop (i * m)).take m = ls[i] ∧
      i * m + m ≤ (ls.flatten ++ rest).length := by
  induction ls generalizing i with
  | nil => exact absurd h (Nat.not_lt_zero i)
  | cons l ls ih =>
      have hl : l.length = m := hm l List.mem_cons_self
      rw [List.flatten_cons, List.append_assoc]
      cases i with
      | zero =>
          rw [Nat.zero_mul, List.drop_zero, List.take_left' hl]
          refine ⟨rfl, ?_⟩
          rw [List.length_append, hl]
          omega
      | succ i =>
          obtain ⟨hcut, hlen⟩ := ih (fun l' h' => hm l' (List.mem_cons_of_mem l h'))
            (Nat.lt_of_succ_lt_succ h)
          have hskip : (i + 1) * m = l.length + i * m := by
            rw [hl, Nat.succ_mul, Nat.add_comm]
          rw [hskip, ← List.drop_drop, List.drop_left]
          refine ⟨hcut, ?_⟩
          rw [List.length_append, hl, Nat.add_assoc]
          exact Nat.add_le_add_left hlen m

theorem slice_flatten {ls : List (List UInt8)} {m : Nat} (hm : ∀ l ∈ ls, l.length = m)
    (rest : List UInt8) {i : Nat} (h : i < ls.length) :
    Encoding.slice (ls.flatten ++ rest) (i * m) m = ls[i] := by
  obtain ⟨hcut, hlen⟩ := take_drop_flatten hm rest h
  rw [Encoding.slice, if_pos hlen, hcut]

namespace Encoding

theorem keyPairs_flatMap_pair (keys : List Key) : keyPairs (keys.flatMap pair) = keys := by
  induction keys with
  | nil => rfl
  | cons k keys ih =>
      show k :: keyPairs (keys.flatMap pair) = k :: keys
      rw [ih]

theorem length_flatMap_pair (keys : List Key) : (keys.flatMap pair).length = keys.length * 2 := by
  induction keys with
  | nil => rfl
  | cons k keys ih =>
      rw [List.flatMap_cons, List.length_append, ih, List.length_cons, Nat.succ_mul, Nat.add_comm]
      rfl

/-- A key without modifiers is known by its code. -/
theorem map_plain_code {keys : List Key} (h : ∀ k ∈ keys, k.mods = 0) :
    (keys.map Key.code).map Key.plain = keys := by
  rw [List.map_map]
  refine (List.map_congr_left fun k hk => ?_).trans (List.map_id keys)
  show (⟨k.code, 0⟩ : Key) = k
  rw [← h k hk]

theorem and_keyMask_of_le {code : UInt8} (h : code ≤ KeyCode.packedLast) :
    code &&& Packing.keyMask = code := by
  apply UInt8.toNat_inj.1
  rw [UInt8.toNat_and]
  have hlt : code.toNat < 2 ^ 6 := Nat.lt_succ_of_le (UInt8.le_iff_toNat_le.1 h)
  show code.toNat &&& (2 ^ 6 - 1) = code.toNat
  rw [Nat.and_two_pow_sub_one_eq_mod, Nat.mod_eq_of_lt hlt]

variable {words : List (List Key)} {length seq : Nat}

theorem readSequence_codes (hlen : ∀ w ∈ words, w.length = length)
    (hkeys : ∀ w ∈ words, ∀ k ∈ w, k.mods = 0) (hmax : length ≤ maxKeys) (rest : List UInt8)
    (h : seq < words.length) :
    readSequence .codes (writeWords .codes words ++ rest) length seq = words[seq] := by
  have hblock : ∀ l ∈ words.map (List.map Key.code), l.length = length := by
    intro l hl
    obtain ⟨w, hw, rfl⟩ := List.mem_map.1 hl
    rw [List.length_map, hlen w hw]
  rw [readSequence, if_neg (Nat.not_lt.2 hmax)]
  show (slice ((words.flatten.map Key.code) ++ rest) (seq * length) length).map Key.plain = _
  rw [List.map_flatten, slice_flatten hblock rest (by rwa [List.length_map]), List.getElem_map,
    map_plain_code (hkeys _ (List.getElem_mem h))]

theorem readSequence_codesWithMods (hlen : ∀ w ∈ words, w.length = length)
    (hmax : length ≤ maxKeys) (rest : List UInt8) (h : seq < words.length) :
    readSequence .codesWithMods (writeWords .codesWithMods words ++ rest) length seq =
      words[seq] := by
  have hblock : ∀ l ∈ words.map (List.flatMap pair), l.length = length * 2 := by
    intro l hl
    obtain ⟨w, hw, rfl⟩ := List.mem_map.1 hl
    rw [length_flatMap_pair, hlen w hw]
  have hflat : words.flatten.flatMap pair = (words.map (List.flatMap pair)).flatten := by
    rw [← List.flatMap_id, List.flatMap_assoc, List.flatMap_def]
    rfl
  rw [readSequence, if_neg (Nat.not_lt.2 hmax)]
  show keyPairs (slice (words.flatten.flatMap pair ++ rest) (seq * (length * 2)) (length * 2)) = _
  rw [hflat, slice_flatten hblock rest (by rwa [List.length_map]), List.getElem_map,
    keyPairs_flatMap_pair]

theorem readSequence_packed (hlen : ∀ w ∈ words, w.length = length)
    (hkeys : ∀ w ∈ words, ∀ k ∈ w, k.mods = 0 ∧ k.code ≤ KeyCode.packedLast)
    (hmax : length ≤ maxKeys) (rest : List UInt8) (h : seq < words.length) :
    readSequence .packed (writeWords .packed words ++ rest) length seq = words[seq] := by
  obtain ⟨hcut, hfits⟩ := take_drop_flatten hlen [] h
  rw [List.append_nil] at hcut hfits
  have hword : ∀ k ∈ words[seq], k.mods = 0 ∧ k.code ≤ KeyCode.packedLast :=
    hkeys _ (List.getElem_mem h)
  have hread := Packing.unpackKeys?_pack (words.flatten.map Key.code) rest length
    (seq * length) (by rwa [List.length_map])
  have hcodes : (((words.flatten.map Key.code).drop (seq * length)).take length).map
      (· &&& Packing.keyMask) = words[seq].map Key.code := by
    rw [← List.map_drop, ← List.map_take, hcut, List.map_map]
    exact List.map_congr_left fun k hk => and_keyMask_of_le (hword k hk).2
  rw [readSequence, if_neg (Nat.not_lt.2 hmax)]
  simp only [unpackSequence, writeWords]
  rw [hread, hcodes]
  exact map_plain_code fun k hk => (hword k hk).1

/-- **Round trip of a table.** Word number `seq` is read as it was written,
whatever bytes follow the table. -/
theorem readSequence_writeWords (encoding : Encoding) (hlen : ∀ w ∈ words, w.length = length)
    (hkeys : ∀ w ∈ words, ∀ k ∈ w, encoding.stores k = true) (hmax : length ≤ maxKeys)
    (rest : List UInt8) (h : seq < words.length) :
    encoding.readSequence (encoding.writeWords words ++ rest) length seq = words[seq] := by
  cases encoding with
  | codes =>
      have hmods : ∀ w ∈ words, ∀ k ∈ w, k.mods = 0 := fun w hw k hk =>
        beq_iff_eq.1 (hkeys w hw k hk)
      exact readSequence_codes hlen hmods hmax rest h
  | codesWithMods => exact readSequence_codesWithMods hlen hmax rest h
  | packed =>
      have hsmall : ∀ w ∈ words, ∀ k ∈ w, k.mods = 0 ∧ k.code ≤ KeyCode.packedLast := by
        intro w hw k hk
        simpa [stores] using hkeys w hw k hk
      exact readSequence_packed hlen hsmall hmax rest h

end Encoding

end Chordboard
