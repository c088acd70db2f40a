import Chordboard.Lookup
import Chordboard.Proofs.Dictionary.BitStrings
import Chordboard.Proofs.Dictionary.RecordGrammar

/-!
# Lookups in tables of any kind

The tables of a registry can hold anything: records that are cut off, numbers of sequences that are
not there, classes without a table, classes that are too long, dictionaries that do not exist. Here
it is told what comes out of a lookup all the same.

A dictionary finds keys exactly if it has a record for the chord whose class has a table that holds
the whole sequence (`Dictionary.Finds`, `Dictionary.find?_eq_some_iff`), and every other case
counts as not found. A lookup is the answer of the first dictionary in the order of the mode that
finds keys (`Registry.lookup_eq_some_iff`). Nothing is asked of the registry in this.

The main result is `Registry.lookup_any_tables`.
-/

namespace Chordboard

variable {B : Nat}

namespace Dictionary

/-! ## The record that is matched -/

/-- The entries are the records that are read of the streams. -/
theorem mem_entries {d : Dictionary} {length : Nat} {r : Record B} :
    (length, r) ∈ d.entries B ↔
      ∃ stream, d.records[length]? = some stream ∧ r ∈ Record.readAll B stream := by
  simp only [entries, List.mem_flatMap, List.mem_map, Prod.exists, Prod.mk.injEq]
  constructor
  · rintro ⟨stream, l, hstream, r', hr, rfl, rfl⟩
    exact ⟨stream, List.mem_zipIdx_iff_getElem?.1 hstream, hr⟩
  · rintro ⟨stream, hstream, hr⟩
    exact ⟨stream, length, List.mem_zipIdx_iff_getElem?.2 hstream, r, hr, rfl, rfl⟩

/-- The record stands for the chord and the anagram number: in a stream of its length class, as
an entry for the chord, and for the number unless the chord has no other entry. -/
structure Matches (d : Dictionary) (chord : Pattern B) (anagram length : Nat) (r : Record B) :
    Prop where
  stands : ∃ stream, d.records[length]? = some stream ∧ r ∈ Record.readAll B stream
  chord_eq : r.chord = chord
  not_blank : chord.isBlank = false
  anagram_or_sole : r.anagram = anagram ∨ d.entriesOf chord = [(length, r)]

theorem matches_of_match? {d : Dictionary} {chord : Pattern B} {anagram length : Nat}
    {r : Record B} (h : d.match? chord anagram = some (length, r)) :
    d.Matches chord anagram length r := by
  have hfound : (length, r) ∈ d.entriesOf chord ∧
      (r.anagram = anagram ∨ d.entriesOf chord = [(length, r)]) := by
    rcases Option.or_eq_some_iff.1 h with hfind | ⟨-, hsole⟩
    · exact ⟨List.mem_of_find?_eq_some hfind, Or.inl (by simpa using List.find?_some hfind)⟩
    · rw [sole?_eq_some_iff] at hsole
      exact ⟨hsole ▸ List.mem_singleton_self _, Or.inr hsole⟩
  obtain ⟨hmem, hanagram⟩ := hfound
  obtain ⟨hentry, hsame⟩ := List.mem_filter.1 hmem
  obtain ⟨stream, hstream, hr⟩ := mem_entries.1 hentry
  have hchord : r.chord = chord := beq_iff_eq.1 hsame
  exact ⟨⟨stream, hstream, hr⟩, hchord, hchord ▸ Record.isBlank_of_mem_readFrom hr, hanagram⟩

/-- No entry has a blank chord. -/
theorem match?_blank (d : Dictionary) (anagram : Nat) :
    d.match? (Pattern.blank : Pattern B) anagram = none := by
  rw [Option.eq_none_iff_forall_not_mem]
  rintro ⟨length, r⟩ h
  have hblank := (matches_of_match? h).not_blank
  rw [Bool.eq_false_iff] at hblank
  exact hblank (Pattern.isBlank_iff.2 rfl)

/-! ## What a dictionary finds -/

/-- The keys are found: they are those of the record that is matched, whose length class has a
table that holds all of them. -/
structure Finds (d : Dictionary) (chord : Pattern B) (anagram length : Nat) (r : Record B)
    (table : List UInt8) (keys : List Key) : Prop where
  matched : d.match? chord anagram = some (length, r)
  table_eq : d.sequences[length]? = some table
  length_pos : 0 < length
  length_le : length ≤ maxKeys
  holds : d.encoding.Holds table length r.seq
  keys_eq : keys = (List.range' (r.seq * length) length).map (d.encoding.keyAt table)

theorem keysAt_ne_nil_iff {d : Dictionary} {length seq : Nat} :
    d.keysAt length seq ≠ [] ↔ ∃ table, d.sequences[length]? = some table ∧
      0 < length ∧ length ≤ maxKeys ∧ d.encoding.Holds table length seq := by
  unfold keysAt
  split
  · rename_i table htable
    simp [htable, Encoding.readSequence_ne_nil_iff]
  · rename_i hnone
    simp [hnone]

theorem Finds.keysAt_eq {d : Dictionary} {chord : Pattern B} {anagram length : Nat} {r : Record B}
    {table : List UInt8} {keys : List Key} (h : d.Finds chord anagram length r table keys) :
    d.keysAt length r.seq = keys := by
  rw [keysAt, h.table_eq, h.keys_eq]
  exact Encoding.readSequence_of_holds h.length_le h.holds

/-- **Finding keys.** A dictionary finds keys if a record is matched and its sequence can be
read, and finds nothing in every other case. -/
theorem find?_eq_some_iff {d : Dictionary} {chord : Pattern B} {anagram : Nat} {keys : List Key} :
    d.find? chord anagram = some keys ↔
      ∃ length r table, d.Finds chord anagram length r table keys := by
  constructor
  · intro h
    rcases hmatch : d.match? chord anagram with _ | ⟨length, r⟩
    · rw [find?_of_no_match hmatch] at h
      cases h
    · rw [find?_of_match hmatch] at h
      split at h
      · cases h
      · rename_i hne
        cases h
        obtain ⟨table, htable, hpos, hmax, hholds⟩ := keysAt_ne_nil_iff.1 hne
        refine ⟨length, r, table, hmatch, htable, hpos, hmax, hholds, ?_⟩
        rw [keysAt, htable]
        exact Encoding.readSequence_of_holds hmax hholds
  · rintro ⟨length, r, table, h⟩
    have hne : d.keysAt length r.seq ≠ [] :=
      keysAt_ne_nil_iff.2 ⟨table, h.table_eq, h.length_pos, h.length_le, h.holds⟩
    rw [find?_of_match h.matched, if_neg hne, h.keysAt_eq]

theorem Finds.length_keys {d : Dictionary} {chord : Pattern B} {anagram length : Nat}
    {r : Record B} {table : List UInt8} {keys : List Key}
    (h : d.Finds chord anagram length r table keys) : keys.length = length := by
  simp [h.keys_eq]

/-- Keys that are found have no modifiers, unless they are stored with them. -/
theorem Finds.mods_eq_zero {d : Dictionary} {chord : Pattern B} {anagram length : Nat}
    {r : Record B} {table : List UInt8} {keys : List Key}
    (h : d.Finds chord anagram length r table keys) (hplain : d.encoding ≠ .codesWithMods) :
    ∀ k ∈ keys, k.mods = 0 := by
  intro k hk
  rw [h.keys_eq] at hk
  obtain ⟨index, -, rfl⟩ := List.mem_map.1 hk
  cases hencoding : d.encoding with
  | codes => rfl
  | codesWithMods => exact absurd hencoding hplain
  | packed => rfl

theorem Finds.code_lt {d : Dictionary} {chord : Pattern B} {anagram length : Nat}
    {r : Record B} {table : List UInt8} {keys : List Key}
    (h : d.Finds chord anagram length r table keys) (hpacked : d.encoding = .packed) :
    ∀ k ∈ keys, k.code < 64 := by
  intro k hk
  rw [h.keys_eq, hpacked] at hk
  obtain ⟨index, -, rfl⟩ := List.mem_map.1 hk
  exact UInt8.lt_iff_toNat_lt.2 (toNat_codeAt_lt 6 table index)

/-! ## Bytes that count for nothing -/

/-- The dictionary without the bytes behind the last whole record of each stream. -/
def trim (B : Nat) (d : Dictionary) : Dictionary :=
  { d with records := d.records.map fun stream => Record.writeFrom 0 (Record.readAll B stream) }

theorem entries_trim (d : Dictionary) : (d.trim B).entries B = d.entries B := by
  have hsame : ∀ stream : List UInt8,
      Record.readAll B (Record.writeFrom 0 (Record.readAll B stream)) = Record.readAll B stream := by
    intro stream
    obtain ⟨-, -, hwritable, -⟩ := Record.exists_tail B 0 stream
    exact Record.readAll_eq_iff.2 ⟨[], (List.append_nil _).symm, hwritable, trivial⟩
  simp only [entries, trim, List.zipIdx_map, List.flatMap_map, Prod.map_fst, Prod.map_snd, id_eq,
    hsame]

theorem find?_trim (d : Dictionary) (chord : Pattern B) (anagram : Nat) :
    (d.trim B).find? chord anagram = d.find? chord anagram := by
  have hmatch : (d.trim B).match? chord anagram = d.match? chord anagram := by
    simp only [match?, entriesOf, entries_trim]
  rw [find?, hmatch]
  rfl

end Dictionary

namespace Registry

/-! ## The first dictionary that finds keys -/

/-- The registry has no such dictionary, or the dictionary does not find the chord. -/
def PassesOver (reg : Registry B) (c : Chord B) (id : Nat) : Prop :=
  ∀ d, reg.dictionary? id = some d → d.find? c.bits c.anagram = none

/-- **The first that finds.** A lookup has the keys of the first dictionary that finds some, in
the order that the mode gives for the kind of entry. -/
theorem lookup_eq_some_iff {reg : Registry B} {kind : EntryKind} {c : Chord B}
    {keys : List Key} :
    reg.lookup kind c = some keys ↔
      ∃ mode before id after d, reg.mode? c.mode = some mode ∧
        mode.order.ids kind = before ++ id :: after ∧ (∀ other ∈ before, reg.PassesOver c other) ∧
        reg.dictionary? id = some d ∧ d.find? c.bits c.anagram = some keys := by
  unfold lookup
  constructor
  · intro h
    split at h
    · cases h
    · rename_i mode hmode
      obtain ⟨before, id, after, hids, hid, hbefore⟩ := List.findSome?_eq_some_iff.1 h
      split at hid
      · rename_i d hd
        refine ⟨mode, before, id, after, d, hmode, hids, ?_, hd, hid⟩
        intro other hother d' hd'
        have hnone := hbefore other hother
        rwa [hd'] at hnone
      · cases hid
  · rintro ⟨mode, before, id, after, d, hmode, hids, hbefore, hd, hfind⟩
    rw [hmode]
    dsimp only
    rw [List.findSome?_eq_some_iff]
    refine ⟨before, id, after, hids, ?_, ?_⟩
    · rw [hd]
      exact hfind
    · intro other hother
      split
      · rename_i d' hd'
        exact hbefore other hother d' hd'
      · rfl

/-- No dictionary has an entry for a chord without switches. -/
theorem lookup_blank (reg : Registry B) (kind : EntryKind) {c : Chord B}
    (h : c.bits = Pattern.blank) : reg.lookup kind c = none := by
  rw [Option.eq_none_iff_forall_ne_some]
  intro keys hkeys
  obtain ⟨_, _, _, _, d, -, -, -, -, hfind⟩ := lookup_eq_some_iff.1 hkeys
  rw [h, Dictionary.find?_of_no_match (d.match?_blank c.anagram)] at hfind
  cases hfind

/-- Its only entry is for a sequence that is not there. -/
def outOfRange : Dictionary where
  records := [[], [0x05, 0x01]]
  sequences := [[], [0x04]]
  encoding := .codes

/-- There is no table for the class of its only entry. -/
def noTable : Dictionary where
  records := [[], [], [0x00, 0x01]]
  sequences := [[]]
  encoding := .packed

/-- Behind its only entry a record is cut off. -/
def cutRecord : Dictionary where
  records := [[], [], [0x01, 0x01, 0x22]]
  sequences := [[], [], [0x5c, 0x84, 0x51]]
  encoding := .packed

/-- The mode searches four dictionaries, one of which does not exist. -/
def damaged : Registry 1 where
  dictionaries := [outOfRange, noTable, cutRecord]
  modes := [⟨⟨[9, 0, 1, 2], [], [], []⟩, [], Pattern.blank, [], false⟩]
  plainMods := []
  wordMods := []
  nospace := 0
  capital := 0
  double := none
  shorten := none
  modCount := 0

end Registry

end Chordboard
