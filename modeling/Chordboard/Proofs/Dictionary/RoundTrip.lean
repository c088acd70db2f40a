import Chordboard.Proofs.Dictionary.Layout
import Mathlib.Data.List.Basic

/-!
# Finding what was laid out

A dictionary that is laid out answers for its contents: which entry stands for a
chord and an anagram number is settled, and its word comes back key by key, in
every encoding and with any bytes behind the streams and tables.

The reader never sees the contents. Its entries are the pairs of length class
and record that the streams spell (`entries_layOut`), and it fetches a word by
the number that the distances add up to (`keysAt_layOut`).
-/

namespace Chordboard

namespace Contents

variable {B : Nat} {s : Contents B}

/-- What the record streams tell of an entry. -/
def located (e : Entry B) : Nat × Record B := (e.length, e.record)

theorem mem_entries {e : Entry B} :
    e ∈ s.entries ↔ ∃ c, s.classes[e.length]? = some c ∧ e.record ∈ c.entries ∧
      e.keys = c.words.getD e.record.seq [] := by
  simp only [entries, List.mem_flatMap, List.mem_map]
  constructor
  · rintro ⟨⟨c, l⟩, hc, r, hr, rfl⟩
    exact ⟨c, List.mem_zipIdx_iff_getElem?.1 hc, hr, rfl⟩
  · rintro ⟨c, hc, hr, hkeys⟩
    exact ⟨(c, e.length), List.mem_zipIdx_iff_getElem?.2 hc, e.record, hr, by rw [← hkeys]⟩

/-- The streams spell the entries in their order. -/
theorem entries_layOut (h : s.Fits) : s.layOut.entries B = s.entries.map located := by
  have hread : ∀ x ∈ s.classes.zipIdx,
      (Record.readAll B x.1.stream).map (x.2, ·) =
        (x.1.entries.map fun r => (⟨x.2, r, x.1.words.getD r.seq []⟩ : Entry B)).map located := by
    rintro ⟨c, l⟩ hx
    have hfit : c.Fits s.encoding l := h.classes_fit (c, l) hx
    have hrecords : Record.readAll B c.stream = c.entries :=
      Record.readFrom_writeFrom hfit.writable (Record.endsStream_endMark _ _)
    rw [hrecords, List.map_map]
    rfl
  rw [Dictionary.entries, layOut, entries, List.zipIdx_map, List.flatMap_map, List.map_flatMap]
  exact List.flatMap_congr hread

theorem Fits.class_fits (h : s.Fits) {l : Nat} {c : LengthClass B}
    (hc : s.classes[l]? = some c) : c.Fits s.encoding l :=
  h.classes_fit (c, l) (List.mem_zipIdx_iff_getElem?.2 hc)

/-- **Fetching a word.** The number of an entry leads to its word, which is not
empty. -/
theorem keysAt_layOut (h : s.Fits) {e : Entry B} (he : e ∈ s.entries) :
    s.layOut.keysAt e.length e.record.seq = e.keys ∧ e.keys ≠ [] := by
  obtain ⟨c, hc, hr, hkeys⟩ := mem_entries.1 he
  have hfit := h.class_fits hc
  have hpos : 0 < e.length := by
    rcases Nat.eq_zero_or_pos e.length with hzero | hpos
    · rw [hfit.not_empty hzero] at hr
      exact absurd hr List.not_mem_nil
    · exact hpos
  have hlt : e.record.seq < c.words.length := hfit.seq_lt e.record hr
  have hword : c.words.getD e.record.seq [] = c.words[e.record.seq] := by
    rw [List.getD_eq_getElem?_getD, List.getElem?_eq_getElem hlt, Option.getD_some]
  have hmax : e.length ≤ maxKeys := by
    have hl : e.length < s.classes.length := (List.getElem?_eq_some_iff.1 hc).1
    have hle := h.classes_le
    omega
  have htable : s.layOut.sequences[e.length]? = some (c.table s.encoding) := by
    rw [layOut, List.getElem?_map, hc, Option.map_some]
  have hread := Encoding.readSequence_writeWords s.encoding hfit.length_word hfit.stored hmax
    c.afterWords hlt
  rw [hkeys, hword]
  constructor
  · rw [Dictionary.keysAt, htable]
    exact hread
  · apply List.ne_nil_of_length_pos
    rw [hfit.length_word _ (List.getElem_mem hlt)]
    exact hpos

theorem sole?_map {α β : Type} (f : α → β) (l : List α) :
    Dictionary.sole? (l.map f) = (Dictionary.sole? l).map f := by
  match l with
  | [] => rfl
  | [_] => rfl
  | _ :: _ :: _ => rfl

/-- The entry that stands for a chord and an anagram number. -/
theorem match?_layOut (h : s.Fits) (chord : Pattern B) (anagram : Nat) :
    s.layOut.match? chord anagram =
      ((s.entries.find? fun e => e.record.chord == chord && e.record.anagram == anagram).or
        (Dictionary.sole? (s.entries.filter fun e => e.record.chord == chord))).map located := by
  have hsame : s.layOut.entriesOf chord =
      (s.entries.filter fun e => e.record.chord == chord).map located := by
    rw [Dictionary.entriesOf, entries_layOut h, List.filter_map]
    rfl
  rw [Dictionary.match?, hsame, List.find?_map, sole?_map, List.find?_filter, Option.map_or]
  simp only [Bool.decide_and, Bool.decide_eq_true]
  rfl

theorem find?_of_match? (h : s.Fits) {chord : Pattern B} {anagram : Nat} {e : Entry B}
    (he : e ∈ s.entries) (hmatch : s.layOut.match? chord anagram = some (located e)) :
    s.layOut.find? chord anagram = some e.keys := by
  obtain ⟨hkeys, hne⟩ := keysAt_layOut h he
  rw [Dictionary.find?_of_match hmatch, hkeys, if_neg hne]

/-- **Round trip of a dictionary.** A dictionary that is laid out finds, for a
chord and an anagram number, exactly the keys of the first entry for both; if
there is none, those of the chord's entry, if it is the only one; else
nothing. -/
theorem find?_layOut (h : s.Fits) (chord : Pattern B) (anagram : Nat) :
    s.layOut.find? chord anagram = s.answer? chord anagram := by
  have hmatch := match?_layOut h chord anagram
  rw [answer?]
  split
  · rename_i e he
    rw [he, Option.some_or, Option.map_some] at hmatch
    exact find?_of_match? h (List.mem_of_find?_eq_some he) hmatch
  · rename_i hnone
    rw [hnone, Option.none_or] at hmatch
    split
    · rename_i e hone
      have he : e ∈ s.entries := by
        have hmem := hone ▸ List.mem_singleton_self e
        exact (List.mem_filter.1 hmem).1
      rw [hone] at hmatch
      exact find?_of_match? h he hmatch
    · rename_i hmany
      have hsole : Dictionary.sole? (s.entries.filter fun e => e.record.chord == chord) = none := by
        unfold Dictionary.sole?
        split
        · rename_i e hone
          exact absurd hone (hmany e)
        · rfl
      rw [hsole] at hmatch
      rw [Dictionary.find?, hmatch]
      rfl

/-- Packed words of one and of three keys. The chord of switches 0 and 8 has
three entries, two of them for anagram 1; the chord of switch 9 has one. -/
def mixedContents : Contents 2 where
  encoding := .packed
  classes := [
    ⟨[], [], 0x70, [1, 2, 3, 4, 5, 6], [9]⟩,
    ⟨[⟨1, 1, 0x0101⟩], [[.plain 20], [.plain 21]], 0xff, [], [0xff]⟩,
    ⟨[], [], 0, [], []⟩,
    ⟨[⟨0, 0, 0x0101⟩, ⟨1, 1, 0x0101⟩, ⟨2, 3, 0x0200⟩],
      [[.plain 4, .plain 5, .plain 6], [.plain 7, .plain 8, .plain 9],
        [.plain 63, .plain 0, .plain 1]], 0, [0x10, 1, 1], []⟩]

theorem find?_mixedContents :
    mixedContents.Fits ∧
      mixedContents.layOut.find? (0x0101 : Pattern 2) 1 = some [.plain 21] ∧
      mixedContents.layOut.find? (0x0101 : Pattern 2) 0 =
        some [.plain 4, .plain 5, .plain 6] ∧
      mixedContents.layOut.find? (0x0101 : Pattern 2) 2 = none ∧
      mixedContents.layOut.find? (0x0200 : Pattern 2) 0 =
        some [.plain 63, .plain 0, .plain 1] ∧
      mixedContents.layOut.find? (0x0001 : Pattern 2) 0 = none := by
  have h : mixedContents.Fits := by decide
  refine ⟨h, ?_, ?_, ?_, ?_, ?_⟩ <;> rw [find?_layOut h] <;> rfl

end Contents

end Chordboard
