import Chordboard.Proofs.Chord.AnagramOrder
import Chordboard.Proofs.Chord.Conservation

/-!
# Restoring undoes extraction

What an extraction takes away it notes down: a modifier in the flags, an anagram in the numbers
taken. A restoration reads these notes and puts the noted patterns back. Word modifiers whose
patterns overlap do no harm, because the word step takes at most one of them, so of all the
patterns only that one is put back (`restoreWord_extractWord`). The anagram step takes what it
finds under the mask, and that is the chord of the number it notes
(`restoreAnagram_extractAnagram`). The two restorations do not look at the switches that are
there, so their order does not matter (`restoreAnagram_restoreWord`).
-/

namespace Chordboard

variable {B : Nat} {reg : Registry B}

/-- A flag that is set and unset again was not there before. -/
theorem ModFlags.unset_set {f : ModFlags} {id : Nat} (h : f.has id = false) :
    (f.set id).unset id = f := by
  refine ext_has (fun j _ => ?_) rfl
  by_cases hj : id = j
  · subst hj
    simp [h]
  · simp [hj]

namespace Pattern

variable {p q : Pattern B}

/-- What was taken out is put back. -/
theorem union_diff (within : ∀ i, q.has i = true → p.has i = true) : (p.diff q).union q = p := by
  refine ext_has fun i _ => ?_
  have hi := within i
  rw [has_union, has_diff]
  cases hq : q.has i with
  | false => simp
  | true => simp [hi hq]

theorem diff_union_inter (p q : Pattern B) : (p.diff q).union (p.inter q) = p := by
  refine ext_has fun i _ => ?_
  rw [has_union, has_diff, has_inter]
  cases p.has i <;> cases q.has i <;> rfl

theorem union_right_comm (p q r : Pattern B) : (p.union q).union r = (p.union r).union q := by
  refine ext_has fun i _ => ?_
  simp only [has_union]
  exact Bool.or_right_comm ..

theorem union_blank (p : Pattern B) : p.union blank = p := BitVec.or_zero

end Pattern

namespace Chord

variable {c : Chord B} {p : Pattern B} {mode : Mode B} {id : Nat}

/-! ## Word modifiers -/

theorem restore_of_not_has (h : c.mods.has id = false) : c.restore p id = c := by
  rw [restore, h]
  rfl

/-- To put a modifier back undoes taking it out. -/
theorem restore_extract (hlt : id < maxModifiers) (h : c.mods.has id = false) :
    (c.extract p id).restore p id = c := by
  by_cases offered : c.offers p = true
  · have hset : (c.mods.set id).has id = true := by simp [hlt]
    rw [extract, if_pos offered, restore, if_pos hset]
    dsimp only
    rw [Pattern.union_diff (offers_iff.1 offered).2, ModFlags.unset_set h]
  · rw [extract, if_neg offered]
    exact restore_of_not_has h

/-- To take a modifier out sets no flag but its own. -/
theorem has_extract_of_ne {j : Nat} (other : id ≠ j) :
    (c.extract p id).mods.has j = c.mods.has j := by
  unfold extract
  split
  · simp [other]
  · rfl

theorem foldl_restore_of_not_has {words : List Nat} (unset : ∀ id ∈ words, c.mods.has id = false) :
    words.foldl (fun c id => c.restore (mode.modChord id) id) c = c := by
  induction words with
  | nil => rfl
  | cons first words ih =>
      rw [List.foldl_cons, restore_of_not_has (unset first List.mem_cons_self)]
      exact ih fun id hid => unset id (List.mem_cons_of_mem first hid)

/-- Of all modifiers that may be put back, the one that was taken out is. -/
theorem foldl_restore_extract {words : List Nat} (hmem : id ∈ words) (hlt : id < maxModifiers)
    (unset : ∀ id ∈ words, c.mods.has id = false) :
    words.foldl (fun c id => c.restore (mode.modChord id) id) (c.extract (mode.modChord id) id) =
      c := by
  induction words with
  | nil => cases hmem
  | cons first words ih =>
      have hrest : ∀ id ∈ words, c.mods.has id = false :=
        fun id hid => unset id (List.mem_cons_of_mem first hid)
      rw [List.foldl_cons]
      by_cases here : id = first
      · rw [← here, restore_extract hlt (unset id hmem)]
        exact foldl_restore_of_not_has hrest
      · have hfirst : (c.extract (mode.modChord id) id).mods.has first = false := by
          rw [has_extract_of_ne here]
          exact unset first List.mem_cons_self
        rw [restore_of_not_has hfirst]
        exact ih ((List.mem_cons.1 hmem).resolve_left here) hrest

theorem restoreWord_eq_foldl (hmode : reg.mode? c.mode = some mode) :
    c.restoreWord reg =
      reg.wordMods.foldl (fun c id => c.restore (mode.modChord id) id) c := by
  rw [restoreWord, hmode]

/-- To put the word modifiers back undoes the word step. -/
theorem restoreWord_extractWord (v : reg.Valid)
    (unset : ∀ id ∈ reg.wordMods, c.mods.has id = false) :
    (c.extractWord reg).restoreWord reg = c := by
  obtain ⟨mode, hmode⟩ := v.exists_mode c.mode
  have htaken : reg.mode? (c.extractWord reg).mode = some mode := by
    rw [mode_extractWord]
    exact hmode
  rw [restoreWord_eq_foldl htaken]
  rcases extractWord_cases hmode with hsame | ⟨id, hword, -, hextract⟩
  · rw [hsame]
    exact foldl_restore_of_not_has unset
  · rw [hextract]
    exact foldl_restore_extract hword (v.lt_maxModifiers (v.wordMod_lt id hword)) unset

/-- The plain step sets no flags but those of plain modifiers. -/
theorem has_extractPlain_of_ne (other : ∀ m ∈ reg.plainMods, m.id ≠ id) :
    (c.extractPlain reg).mods.has id = c.mods.has id := by
  cases hmode : reg.mode? c.mode with
  | none =>
      rw [extractPlain, hmode]
  | some mode =>
      rw [extractPlain_eq_foldl hmode]
      refine List.foldlRecOn (motive := fun c' : Chord B => c'.mods.has id = c.mods.has id)
        _ _ rfl ?_
      intro c' h m hm
      rw [has_extract_of_ne (other m hm), h]

/-! ## Anagrams -/

/-- The switches of an anagram are those of the chords whose numbers were taken. -/
theorem has_anagramBits_iff {j : Nat} :
    (c.anagramBits mode).has j = true ↔
      ∃ i p, mode.anagramChords[i]? = some p ∧ c.anagramsTaken.getLsbD i = true ∧
        p.has j = true := by
  have hfold : c.anagramBits mode =
      (mode.anagramChords.zipIdx.filter fun x => c.anagramsTaken.getLsbD x.2).foldl
        (fun acc x => acc.union x.1) Pattern.blank := by
    rw [List.foldl_filter]
    rfl
  rw [hfold, Pattern.has_foldl_union_iff]
  simp only [Pattern.has_blank, Bool.false_eq_true, false_or, List.mem_filter,
    List.mem_zipIdx_iff_getElem?, Prod.exists]
  constructor
  · rintro ⟨p, i, ⟨hp, htaken⟩, hj⟩
    exact ⟨i, p, hp, htaken, hj⟩
  · rintro ⟨i, p, hp, htaken, hj⟩
    exact ⟨p, i, ⟨hp, htaken⟩, hj⟩

theorem anagramBits_of_none (none : c.anagramsTaken = 0) : c.anagramBits mode = Pattern.blank := by
  rw [← Pattern.isBlank_iff, Pattern.isBlank_iff_has]
  intro j
  rw [← Bool.not_eq_true, has_anagramBits_iff, none]
  simp

/-- If one number was taken, its chord is what there is to put back. -/
theorem anagramBits_of_one {i : Nat} (hlt : i < maxAnagrams)
    (one : c.anagramsTaken = BitVec.twoPow maxAnagrams i)
    (hp : mode.anagramChords[i]? = some p) : c.anagramBits mode = p := by
  refine Pattern.ext_has fun j _ => ?_
  rw [Bool.eq_iff_iff, has_anagramBits_iff, one]
  constructor
  · rintro ⟨i', p', hp', htaken, hj⟩
    rw [BitVec.getLsbD_twoPow, Bool.and_eq_true, decide_eq_true_iff, decide_eq_true_iff] at htaken
    rw [← htaken.2, hp] at hp'
    rw [Option.some.inj hp']
    exact hj
  · intro hj
    refine ⟨i, p, hp, ?_, hj⟩
    simp [hlt]

@[simp] theorem mode_restoreAnagram (reg : Registry B) (c : Chord B) :
    (c.restoreAnagram reg).mode = c.mode := by
  unfold restoreAnagram
  split <;> rfl

theorem restoreAnagram_of_mode (hmode : reg.mode? c.mode = some mode) :
    c.restoreAnagram reg =
      { c with
        bits := c.bits.union (c.anagramBits mode)
        anagram := 0
        anagramsTaken := 0 } := by
  rw [restoreAnagram, hmode]
  rfl

/-- The anagram step takes out the switches under the mask, and the chord is on the anagram that
they choose. -/
theorem extractAnagram_eq_onAnagram (hmode : reg.mode? c.mode = some mode)
    (none : c.anagramsTaken = 0) {i : Nat} (chosen : c.chosenAnagram? mode = some i) :
    c.extractAnagram reg = { c with bits := c.bits.diff mode.anagramMask }.onAnagram i := by
  have hone : c.anagramsTaken ||| BitVec.twoPow maxAnagrams i = BitVec.twoPow maxAnagrams i := by
    rw [none]
    exact BitVec.zero_or
  rw [extractAnagram_of_chosen hmode chosen, hone]
  rfl

theorem restoreAnagram_onAnagram (hmode : reg.mode? c.mode = some mode) {i : Nat}
    (hlt : i < maxAnagrams) (hp : mode.anagramChords[i]? = some p) :
    (c.onAnagram i).restoreAnagram reg =
      { c with bits := c.bits.union p, anagram := 0, anagramsTaken := 0 } := by
  have hmoved : reg.mode? (c.onAnagram i).mode = some mode := hmode
  rw [restoreAnagram_of_mode hmoved, anagramBits_of_one hlt rfl hp]
  rfl

/-- To put the anagram back undoes the anagram step. -/
theorem restoreAnagram_extractAnagram (v : reg.Valid) (none : c.anagramsTaken = 0)
    (first : c.anagram = 0) : (c.extractAnagram reg).restoreAnagram reg = c := by
  obtain ⟨mode, hmode⟩ := v.exists_mode c.mode
  cases chosen : c.chosenAnagram? mode with
  | none =>
      rw [extractAnagram_of_not_chosen hmode chosen, restoreAnagram_of_mode hmode,
        anagramBits_of_none none, Pattern.union_blank, ← first, ← none]
  | some i =>
      obtain ⟨hlt, hchord⟩ := getD_of_chosenAnagram? chosen
      have hmax : i < maxAnagrams :=
        Nat.lt_of_lt_of_le hlt (v.anagrams_le mode (List.mem_of_getElem? hmode))
      have hget : mode.anagramChords[i]? = some (c.bits.inter mode.anagramMask) := by
        rw [← hchord, List.getD_eq_getElem?_getD, List.getElem?_eq_getElem hlt, Option.getD_some]
      rw [extractAnagram_eq_onAnagram hmode none chosen]
      have hrest : reg.mode? { c with bits := c.bits.diff mode.anagramMask }.mode = some mode :=
        hmode
      rw [restoreAnagram_onAnagram hrest hmax hget]
      dsimp only
      rw [Pattern.diff_union_inter, ← first, ← none]

/-! ## Both -/

theorem restoreAnagram_restore (c : Chord B) (p : Pattern B) (id : Nat) :
    (c.restore p id).restoreAnagram reg = (c.restoreAnagram reg).restore p id := by
  cases hmode : reg.mode? c.mode with
  | none =>
      rw [restoreAnagram, mode_restore, restoreAnagram, hmode]
  | some mode =>
      have hrestored : reg.mode? (c.restore p id).mode = some mode := by
        rw [mode_restore]
        exact hmode
      rw [restoreAnagram_of_mode hrestored, restoreAnagram_of_mode hmode]
      unfold restore
      cases c.mods.has id with
      | false => rfl
      | true =>
          rw [if_pos rfl, if_pos rfl]
          dsimp only
          rw [Pattern.union_right_comm]
          rfl

/-- Word modifiers and anagrams can be put back in any order. -/
theorem restoreAnagram_restoreWord (reg : Registry B) (c : Chord B) :
    (c.restoreWord reg).restoreAnagram reg = (c.restoreAnagram reg).restoreWord reg := by
  cases hmode : reg.mode? c.mode with
  | none =>
      have hrestored : reg.mode? (c.restoreAnagram reg).mode = none := by
        rw [mode_restoreAnagram]
        exact hmode
      rw [restoreWord, hmode, restoreWord, hrestored]
  | some mode =>
      have hrestored : reg.mode? (c.restoreAnagram reg).mode = some mode := by
        rw [mode_restoreAnagram]
        exact hmode
      rw [restoreWord_eq_foldl hmode, restoreWord_eq_foldl hrestored]
      refine (List.foldl_hom (restoreAnagram reg) ?_).symm
      intro c' id
      exact (restoreAnagram_restore c' _ id).symm

/-- **Restoring undoes extraction.** Take the word modifier out of a chord that has no flag of a
word modifier, and put the word modifiers back: the chord is the same as before, whatever the
patterns of the word modifiers have in common. If further no anagram was taken out, the chord is
on the first anagram, and no modifier is both a plain and a word modifier, then the word modifier
and the anagram that the three steps have taken out can be put back in either order, and what is
left is the chord without its plain modifiers. -/
theorem restored_as_before (valid : reg.validate = .ok ()) (c : Chord B)
    (unset : ∀ id ∈ reg.wordMods, c.mods.has id = false) :
    (c.extractWord reg).restoreWord reg = c ∧
      (c.anagramsTaken = 0 → c.anagram = 0 → (∀ m ∈ reg.plainMods, m.id ∉ reg.wordMods) →
        ((((c.extractPlain reg).extractWord reg).extractAnagram reg).restoreAnagram reg).restoreWord
            reg = c.extractPlain reg ∧
          ((((c.extractPlain reg).extractWord reg).extractAnagram reg).restoreWord
            reg).restoreAnagram reg = c.extractPlain reg) := by
  have v := Registry.validate_eq_ok_iff.1 valid
  refine ⟨restoreWord_extractWord v unset, ?_⟩
  intro none first apart
  have hunset : ∀ id ∈ reg.wordMods, (c.extractPlain reg).mods.has id = false := by
    intro id hid
    rw [has_extractPlain_of_ne fun m hm hsame => apart m hm (hsame ▸ hid)]
    exact unset id hid
  have hnone : ((c.extractPlain reg).extractWord reg).anagramsTaken = 0 := by
    rw [anagramsTaken_extractWord, anagramsTaken_extractPlain, none]
  have hfirst : ((c.extractPlain reg).extractWord reg).anagram = 0 := by
    rw [anagram_extractWord, anagram_extractPlain, first]
  rw [restoreAnagram_restoreWord, restoreAnagram_extractAnagram v hnone hfirst,
    restoreWord_extractWord v hunset]
  exact ⟨rfl, rfl⟩

/-- One word modifier is part of the other here, and one of the six switches chooses an anagram. -/
theorem restored_overlapping :
    overlappingMods.validate = .ok () ∧
      ((ofBits 0 0xcf).extractWord overlappingMods).bits = 0xc7 ∧
      ((ofBits 0 0xcf).extractWord overlappingMods).restoreWord overlappingMods = ofBits 0 0xcf ∧
      ((((ofBits 0 0xcf).extractPlain overlappingMods).extractWord overlappingMods).extractAnagram
        overlappingMods).bits = 0x84 ∧
      (((((ofBits 0 0xcf).extractPlain overlappingMods).extractWord overlappingMods).extractAnagram
        overlappingMods).restoreAnagram overlappingMods).restoreWord overlappingMods =
          (ofBits 0 0xcf).extractPlain overlappingMods := by
  have valid : overlappingMods.validate = .ok () := rfl
  have hunset : ∀ id ∈ overlappingMods.wordMods,
      (ofBits 0 (0xcf : Pattern 1)).mods.has id = false :=
    fun id _ => ModFlags.has_empty id
  obtain ⟨hword, hsteps⟩ := restored_as_before valid (ofBits 0 0xcf) hunset
  exact ⟨valid, by decide, hword, by decide, (hsteps rfl rfl (by decide)).1⟩

end Chord

end Chordboard
