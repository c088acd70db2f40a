import Chordboard.Chord.Extraction
import Chordboard.Registry.Validation

/-!
# No switch is lost or counted twice

Taking modifiers out of a chord moves switches from its bits to the patterns of what was taken
out: the modifiers that are set now, and the chosen anagram. At every moment the switches that
were pressed are the disjoint union of all these patterns (`parts`), however much the patterns of
a mode overlap, because each step only takes what the steps before it have left.
-/

namespace Chordboard

variable {B : Nat} {reg : Registry B}

namespace Pattern

/-! ## Disjoint unions -/

/-- The pattern is the union of the parts, and no two of them share a switch. -/
structure MadeUpOf (p : Pattern B) (parts : List (Pattern B)) : Prop where
  apart : parts.Pairwise fun q r => q.inter r = blank
  has_iff : ∀ i, p.has i = true ↔ ∃ q ∈ parts, q.has i = true

variable {p q r rest : Pattern B} {parts : List (Pattern B)}

theorem inter_comm (q r : Pattern B) : q.inter r = r.inter q := BitVec.and_comm q r

theorem inter_eq_blank_iff :
    q.inter r = blank ↔ ∀ i, q.has i = true → r.has i = false := by
  rw [← isBlank_iff, isBlank_iff_has]
  constructor
  · intro h i hq
    have hi := h i
    rw [has_inter, hq, Bool.true_and] at hi
    exact hi
  · intro h i
    rw [has_inter]
    cases hq : q.has i with
    | false => rfl
    | true => rw [h i hq, Bool.and_false]

theorem madeUpOf_single (p : Pattern B) : p.MadeUpOf [p] :=
  ⟨List.pairwise_singleton _ _, fun i => by simp⟩

/-- The order of the parts does not matter. -/
theorem MadeUpOf.perm {parts' : List (Pattern B)} (h : p.MadeUpOf parts)
    (same : parts.Perm parts') : p.MadeUpOf parts' := by
  constructor
  · refine (same.pairwise_iff ?_).1 h.apart
    intro q r hqr
    rw [inter_comm, hqr]
  · intro i
    rw [h.has_iff]
    constructor
    · rintro ⟨q, hq, hi⟩
      exact ⟨q, same.subset hq, hi⟩
    · rintro ⟨q, hq, hi⟩
      exact ⟨q, same.symm.subset hq, hi⟩

/-- A part can be cut in two. -/
theorem MadeUpOf.cut (h : p.MadeUpOf (rest :: parts))
    (within : ∀ i, q.has i = true → rest.has i = true) :
    p.MadeUpOf (rest.diff q :: q :: parts) := by
  obtain ⟨apart, has_iff⟩ := h
  obtain ⟨hrest, hparts⟩ := List.pairwise_cons.1 apart
  constructor
  · refine List.pairwise_cons.2 ⟨?_, List.pairwise_cons.2 ⟨?_, hparts⟩⟩
    · intro r hr
      rw [inter_eq_blank_iff]
      intro i hi
      rw [has_diff, Bool.and_eq_true, Bool.not_eq_true'] at hi
      rcases List.mem_cons.1 hr with rfl | hr
      · exact hi.2
      · exact inter_eq_blank_iff.1 (hrest r hr) i hi.1
    · intro r hr
      rw [inter_eq_blank_iff]
      intro i hi
      exact inter_eq_blank_iff.1 (hrest r hr) i (within i hi)
  · intro i
    rw [has_iff]
    simp only [List.mem_cons, or_and_right, exists_or, exists_eq_left, has_diff,
      Bool.and_eq_true, Bool.not_eq_true']
    constructor
    · rintro (hi | hi)
      · cases hq : q.has i with
        | true => exact Or.inr (Or.inl rfl)
        | false => exact Or.inl ⟨hi, rfl⟩
      · exact Or.inr (Or.inr hi)
    · rintro (⟨hi, -⟩ | hi | hi)
      · exact Or.inl hi
      · exact Or.inl (within i hi)
      · exact Or.inr hi

/-- Where patterns are gathered one after the other, the outcome has the switches of each. -/
theorem has_foldl_union_iff {α : Type} {l : List α} {f : α → Pattern B} {p : Pattern B} {i : Nat} :
    (l.foldl (fun acc x => acc.union (f x)) p).has i = true ↔
      p.has i = true ∨ ∃ x ∈ l, (f x).has i = true := by
  induction l generalizing p with
  | nil => simp
  | cons x l ih =>
      simp only [List.foldl_cons, ih, has_union, Bool.or_eq_true, or_assoc, List.mem_cons,
        exists_eq_or_imp]

end Pattern

/-! ## What a chord is made up of -/

/-- The numbers of the modifiers that are set. -/
def ModFlags.taken (f : ModFlags) : List Nat := (List.range maxModifiers).filter f.has

theorem ModFlags.mem_taken {f : ModFlags} {id : Nat} : id ∈ f.taken ↔ f.has id = true := by
  rw [taken, List.mem_filter, List.mem_range]
  constructor
  · exact And.right
  · intro h
    refine ⟨Nat.lt_of_not_le fun hle => ?_, h⟩
    rw [has_of_le hle] at h
    cases h

theorem ModFlags.taken_set_perm {f : ModFlags} {id : Nat} (hlt : id < maxModifiers)
    (new : f.has id = false) : (f.set id).taken.Perm (id :: f.taken) := by
  have hnodup : ∀ g : ModFlags, g.taken.Nodup := fun g => List.nodup_range.filter _
  refine (List.perm_ext_iff_of_nodup (hnodup _) (List.nodup_cons.2 ⟨?_, hnodup f⟩)).2 ?_
  · rw [mem_taken, new]
    exact Bool.false_ne_true
  · intro j
    rw [List.mem_cons, mem_taken, mem_taken, has_set, decide_eq_true hlt, Bool.true_and,
      Bool.or_eq_true, decide_eq_true_iff, or_comm]
    exact or_congr_left eq_comm

namespace Chord

/-- The patterns that the switches of a chord were sorted into: those that are left, the chords
of the modifiers that are set, and, if one was taken out, the chord of the anagram. -/
def parts (mode : Mode B) (c : Chord B) : List (Pattern B) :=
  c.bits :: (c.mods.taken.map mode.modChord ++
    if c.anagramsTaken = 0 then [] else [mode.anagramChords.getD c.anagram Pattern.blank])

variable {c : Chord B} {p : Pattern B} {mode : Mode B}

theorem parts_ofBits (mode : Mode B) (number : Nat) (p : Pattern B) :
    (ofBits number p).parts mode = [p] := by
  have hnone : ModFlags.empty.taken = [] := by decide
  show p :: (ModFlags.empty.taken.map mode.modChord ++ if (0 : BitVec maxAnagrams) = 0 then []
    else [mode.anagramChords.getD 0 Pattern.blank]) = [p]
  rw [hnone, if_pos rfl]
  rfl

/-! ## One modifier -/

theorem anagramsTaken_extract (c : Chord B) (q : Pattern B) (id : Nat) :
    (c.extract q id).anagramsTaken = c.anagramsTaken := by
  unfold extract
  split <;> rfl

theorem offers_of_offers_extract {q q' : Pattern B} {id : Nat}
    (h : (c.extract q id).offers q' = true) : c.offers q' = true := by
  obtain ⟨some, within⟩ := offers_iff.1 h
  refine offers_iff.2 ⟨some, fun i hi => ?_⟩
  have hleft := within i hi
  unfold extract at hleft
  split at hleft
  · rw [Pattern.has_diff, Bool.and_eq_true] at hleft
    exact hleft.1
  · exact hleft

/-- A modifier that was asked for is not there any more. -/
theorem not_offers_extract (c : Chord B) (q : Pattern B) (id : Nat) :
    (c.extract q id).offers q = false := by
  rw [← Bool.not_eq_true]
  intro h
  have hoffered := offers_of_offers_extract h
  obtain ⟨⟨i, hi⟩, within⟩ := offers_iff.1 h
  have hleft := within i hi
  rw [extract, if_pos hoffered, Pattern.has_diff, hi, Bool.not_true, Bool.and_false] at hleft
  cases hleft

/-- A modifier whose switches are all there was not taken out before. -/
theorem not_has_of_offers (h : p.MadeUpOf (c.parts mode)) {id : Nat}
    (offered : c.offers (mode.modChord id) = true) : c.mods.has id = false := by
  rw [← Bool.not_eq_true]
  intro hset
  obtain ⟨⟨i, hi⟩, within⟩ := offers_iff.1 offered
  obtain ⟨hrest, -⟩ := List.pairwise_cons.1 h.apart
  have hpart := hrest (mode.modChord id)
    (List.mem_append_left _ (List.mem_map_of_mem (ModFlags.mem_taken.2 hset)))
  rw [Pattern.inter_eq_blank_iff.1 hpart i (within i hi)] at hi
  cases hi

theorem madeUpOf_extract (h : p.MadeUpOf (c.parts mode)) {id : Nat} (hlt : id < maxModifiers) :
    p.MadeUpOf ((c.extract (mode.modChord id) id).parts mode) := by
  by_cases offered : c.offers (mode.modChord id) = true
  · have hnew := not_has_of_offers h offered
    have hcut := h.cut (offers_iff.1 offered).2
    rw [extract, if_pos offered]
    refine hcut.perm (List.Perm.cons _ ?_)
    exact ((ModFlags.taken_set_perm hlt hnew).map mode.modChord).symm.append_right _
  · rw [extract, if_neg offered]
    exact h

/-! ## The three steps -/

theorem extractPlain_eq_foldl (hmode : reg.mode? c.mode = some mode) :
    c.extractPlain reg =
      reg.plainMods.foldl (fun c m => c.extract (mode.modChord m.id) m.id) c := by
  rw [extractPlain, hmode]

theorem madeUpOf_extractPlain (v : reg.Valid) (hmode : reg.mode? c.mode = some mode)
    (h : p.MadeUpOf (c.parts mode)) : p.MadeUpOf ((c.extractPlain reg).parts mode) := by
  rw [extractPlain_eq_foldl hmode]
  refine List.foldlRecOn (motive := fun c : Chord B => p.MadeUpOf (c.parts mode)) _ _ h ?_
  intro c hc m hm
  exact madeUpOf_extract hc (v.lt_maxModifiers (v.plainMod_lt m hm))

/-- Once all of the plain modifiers were asked for, none is there. -/
theorem not_offers_foldl_extract (mode : Mode B) (c : Chord B) {mods : List PlainMod}
    {m : PlainMod} (hm : m ∈ mods) :
    (mods.foldl (fun c m => c.extract (mode.modChord m.id) m.id) c).offers (mode.modChord m.id) =
      false := by
  induction mods generalizing c with
  | nil => cases hm
  | cons first mods ih =>
      rw [List.foldl_cons]
      rcases List.mem_cons.1 hm with rfl | hm
      · -- It was asked for first, and the modifiers after it only take more away.
        refine List.foldlRecOn (motive := fun c : Chord B => c.offers (mode.modChord m.id) = false)
          _ _ (not_offers_extract ..) ?_
        intro c hc m' _
        rw [← Bool.not_eq_true] at hc ⊢
        exact mt offers_of_offers_extract hc
      · exact ih _ hm

theorem foldl_extract_of_not_offers {mods : List PlainMod}
    (h : ∀ m ∈ mods, c.offers (mode.modChord m.id) = false) :
    mods.foldl (fun c m => c.extract (mode.modChord m.id) m.id) c = c := by
  induction mods with
  | nil => rfl
  | cons m mods ih =>
      have hsame : c.extract (mode.modChord m.id) m.id = c := by
        rw [extract, h m List.mem_cons_self]
        rfl
      rw [List.foldl_cons, hsame]
      exact ih fun m' hm' => h m' (List.mem_cons_of_mem _ hm')

/-- The word modifier that is there, if it is the only one. -/
def soleWord? (reg : Registry B) (mode : Mode B) (c : Chord B) : Option Nat :=
  Dictionary.sole? (reg.wordMods.filter fun id => c.offers (mode.modChord id))

theorem of_soleWord? {id : Nat} (h : c.soleWord? reg mode = some id) :
    id ∈ reg.wordMods ∧ c.offers (mode.modChord id) = true := by
  rw [soleWord?, Dictionary.sole?_eq_some_iff] at h
  rw [← List.mem_filter (p := fun id => c.offers (mode.modChord id)), h]
  exact List.mem_singleton_self id

theorem extractWord_eq_elim (hmode : reg.mode? c.mode = some mode) :
    c.extractWord reg = (c.soleWord? reg mode).elim c fun id => c.extract (mode.modChord id) id := by
  rw [extractWord, hmode, soleWord?]
  dsimp only
  cases reg.wordMods.filter fun id => c.offers (mode.modChord id) with
  | nil => rfl
  | cons id others => cases others <;> rfl

/-- The word step takes nothing, or the one word modifier that is there. -/
theorem extractWord_cases (hmode : reg.mode? c.mode = some mode) :
    c.extractWord reg = c ∨ ∃ id ∈ reg.wordMods,
      c.offers (mode.modChord id) = true ∧
        c.extractWord reg = c.extract (mode.modChord id) id := by
  rw [extractWord_eq_elim hmode]
  cases sole : c.soleWord? reg mode with
  | none => exact Or.inl rfl
  | some id =>
      obtain ⟨hword, hoffered⟩ := of_soleWord? sole
      exact Or.inr ⟨id, hword, hoffered, rfl⟩

theorem madeUpOf_extractWord (v : reg.Valid) (hmode : reg.mode? c.mode = some mode)
    (h : p.MadeUpOf (c.parts mode)) : p.MadeUpOf ((c.extractWord reg).parts mode) := by
  rcases extractWord_cases hmode with hsame | ⟨id, hword, -, htaken⟩
  · rw [hsame]
    exact h
  · rw [htaken]
    exact madeUpOf_extract h (v.lt_maxModifiers (v.wordMod_lt id hword))

theorem anagramsTaken_extractPlain (reg : Registry B) (c : Chord B) :
    (c.extractPlain reg).anagramsTaken = c.anagramsTaken := by
  refine extractPlain_keeps (P := fun c' => c'.anagramsTaken = c.anagramsTaken) ?_ reg rfl
  intro c' q id h
  rw [anagramsTaken_extract, h]

theorem anagramsTaken_extractWord (reg : Registry B) (c : Chord B) :
    (c.extractWord reg).anagramsTaken = c.anagramsTaken := by
  refine extractWord_keeps (P := fun c' => c'.anagramsTaken = c.anagramsTaken) ?_ reg rfl
  intro c' q id h
  rw [anagramsTaken_extract, h]

/-- The switches that choose an anagram are its chord. -/
theorem getD_of_chosenAnagram? {i : Nat} (h : c.chosenAnagram? mode = some i) :
    i < mode.anagramChords.length ∧
      mode.anagramChords.getD i Pattern.blank = c.bits.inter mode.anagramMask := by
  unfold chosenAnagram? at h
  split at h
  · cases h
  · obtain ⟨hlt, hchord, -⟩ := List.findIdx?_eq_some_iff_getElem.1 h
    refine ⟨hlt, ?_⟩
    rw [List.getD_eq_getElem?_getD, List.getElem?_eq_getElem hlt, Option.getD_some]
    exact beq_iff_eq.1 hchord

theorem extractAnagram_of_not_chosen (hmode : reg.mode? c.mode = some mode)
    (h : c.chosenAnagram? mode = none) : c.extractAnagram reg = c := by
  rw [extractAnagram, hmode]
  dsimp only
  rw [h]

theorem extractAnagram_of_chosen (hmode : reg.mode? c.mode = some mode) {i : Nat}
    (h : c.chosenAnagram? mode = some i) :
    c.extractAnagram reg =
      { c with
        bits := c.bits.diff mode.anagramMask
        anagram := i
        anagramsTaken := c.anagramsTaken ||| BitVec.twoPow maxAnagrams i } := by
  rw [extractAnagram, hmode]
  dsimp only
  rw [h]

theorem madeUpOf_extractAnagram (v : reg.Valid) (hmode : reg.mode? c.mode = some mode)
    (fresh : c.anagramsTaken = 0) (h : p.MadeUpOf (c.parts mode)) :
    p.MadeUpOf ((c.extractAnagram reg).parts mode) := by
  cases chosen : c.chosenAnagram? mode with
  | none =>
      rw [extractAnagram_of_not_chosen hmode chosen]
      exact h
  | some i =>
      rw [extractAnagram_of_chosen hmode chosen]
      obtain ⟨hlt, hchord⟩ := getD_of_chosenAnagram? chosen
      have hmax : i < maxAnagrams :=
        Nat.lt_of_lt_of_le hlt (v.anagrams_le mode (List.mem_of_getElem? hmode))
      have hsome : c.anagramsTaken ||| BitVec.twoPow maxAnagrams i ≠ 0 := by
        intro hzero
        have hbit := congrArg (fun f : BitVec maxAnagrams => f.getLsbD i) hzero
        simp [hmax] at hbit
      have hcut := h.cut (q := c.bits.inter mode.anagramMask) fun j hj => by
        rw [Pattern.has_inter, Bool.and_eq_true] at hj
        exact hj.1
      have hleft : c.bits.diff (c.bits.inter mode.anagramMask) = c.bits.diff mode.anagramMask := by
        refine Pattern.ext_has fun j _ => ?_
        rw [Pattern.has_diff, Pattern.has_diff, Pattern.has_inter]
        cases c.bits.has j <;> rfl
      rw [hleft, fresh, if_pos rfl, List.append_nil] at hcut
      show p.MadeUpOf (c.bits.diff mode.anagramMask :: (c.mods.taken.map mode.modChord ++
        if c.anagramsTaken ||| BitVec.twoPow maxAnagrams i = 0 then []
        else [mode.anagramChords.getD i Pattern.blank]))
      rw [if_neg hsome, hchord]
      exact hcut.perm (List.Perm.cons _ (List.perm_append_singleton ..).symm)

theorem mods_extractAnagram (reg : Registry B) (c : Chord B) :
    (c.extractAnagram reg).mods = c.mods := by
  unfold extractAnagram
  split
  · rfl
  · split <;> rfl

/-- **Modifiers conserve switches.** Take the plain modifiers, a word modifier and the anagram out
of any pattern of switches. The pattern is then the disjoint union of what is left, the chords of
the modifiers that are set, and the chord of the anagram number, if an anagram was taken out. The
word step sets at most one modifier, and the anagram step none. Right after the plain step no
plain modifier is there, so to ask for them again changes nothing. -/
theorem switches_conserved (valid : reg.validate = .ok ()) (number : Nat) (p : Pattern B) :
    ∃ mode, reg.mode? number = some mode ∧
      p.MadeUpOf
        (((((ofBits number p).extractPlain reg).extractWord reg).extractAnagram reg).parts mode) ∧
      ((((ofBits number p).extractPlain reg).extractWord reg).mods =
          ((ofBits number p).extractPlain reg).mods ∨
        ∃ id ∈ reg.wordMods, (((ofBits number p).extractPlain reg).extractWord reg).mods =
          ((ofBits number p).extractPlain reg).mods.set id) ∧
      ((((ofBits number p).extractPlain reg).extractWord reg).extractAnagram reg).mods =
        (((ofBits number p).extractPlain reg).extractWord reg).mods ∧
      (∀ m ∈ reg.plainMods, (mode.modChord m.id).isBlank = false →
        ((ofBits number p).extractPlain reg).bits.contains (mode.modChord m.id) = false) ∧
      ((ofBits number p).extractPlain reg).extractPlain reg =
        (ofBits number p).extractPlain reg := by
  have v := Registry.validate_eq_ok_iff.1 valid
  obtain ⟨mode, hmode⟩ := v.exists_mode number
  -- All steps work in the mode of the chord.
  have hfresh : reg.mode? (ofBits number p).mode = some mode := hmode
  have hplain : reg.mode? ((ofBits number p).extractPlain reg).mode = some mode := by
    rw [mode_extractPlain]
    exact hfresh
  have hword : reg.mode? (((ofBits number p).extractPlain reg).extractWord reg).mode =
      some mode := by
    rw [mode_extractWord]
    exact hplain
  have hnone : (((ofBits number p).extractPlain reg).extractWord reg).anagramsTaken = 0 := by
    rw [anagramsTaken_extractWord, anagramsTaken_extractPlain]
    rfl
  have hgone : ∀ m ∈ reg.plainMods,
      ((ofBits number p).extractPlain reg).offers (mode.modChord m.id) = false := by
    intro m hm
    rw [extractPlain_eq_foldl hfresh]
    exact not_offers_foldl_extract mode _ hm
  refine ⟨mode, hmode, ?_, ?_, mods_extractAnagram .., ?_, ?_⟩
  · have hstart : p.MadeUpOf ((ofBits number p).parts mode) := by
      rw [parts_ofBits]
      exact Pattern.madeUpOf_single p
    exact madeUpOf_extractAnagram v hword hnone
      (madeUpOf_extractWord v hplain (madeUpOf_extractPlain v hfresh hstart))
  · rcases extractWord_cases hplain with hsame | ⟨id, hmem, hoffered, htaken⟩
    · exact Or.inl (congrArg Chord.mods hsame)
    · refine Or.inr ⟨id, hmem, ?_⟩
      rw [htaken, extract, if_pos hoffered]
  · intro m hm hsome
    have hoffers := hgone m hm
    rw [offers, hsome] at hoffers
    exact hoffers
  · rw [extractPlain_eq_foldl hplain]
    exact foldl_extract_of_not_offers hgone

/-- Two plain modifiers share switch 1, and two word modifiers share switch 3. -/
def overlappingMode : Mode 1 :=
  ⟨⟨[], [], [], []⟩, [0x03, 0x06, 0x08, 0x18], 0x60, [0x20, 0x40], false⟩

def overlappingMods : Registry 1 where
  dictionaries := []
  modes := [overlappingMode]
  plainMods := [⟨0, Modifier.leftShift⟩, ⟨1, Modifier.leftCtrl⟩]
  wordMods := [2, 3]
  nospace := 2
  capital := 3
  double := none
  shorten := none
  modCount := 4

/-- Of six switches the first plain modifier takes two, so the second one is incomplete. -/
theorem switches_conserved_overlapping :
    overlappingMods.validate = .ok () ∧ (0xcf : Pattern 1).MadeUpOf [0x84, 0x03, 0x08, 0x40] := by
  have valid : overlappingMods.validate = .ok () := rfl
  obtain ⟨mode, hmode, hparts, -⟩ := switches_conserved valid 0 0xcf
  have hfirst : mode = overlappingMode := (Option.some.inj hmode).symm
  have hlist : (((((ofBits 0 0xcf).extractPlain overlappingMods).extractWord
      overlappingMods).extractAnagram overlappingMods).parts overlappingMode) =
        [0x84, 0x03, 0x08, 0x40] := by decide
  rw [hfirst, hlist] at hparts
  exact ⟨valid, hparts⟩

end Chord

end Chordboard
