import Chordboard.Proofs.Chord.Restoration

/-!
# A cycled chord is the chord one would press

An anagram has three forms: its number, the mark that it was taken out, and the switches that
choose it. A chord that was moved to another anagram keeps the first two in step
(`iterate_cycleAnagram_eq_onAnagram`). Restored, it has the switches of that number
(`restoreAnagram_onAnagram`), and where the anagrams of a mode have different switches, all of
them under the mask, these switches choose that number again (`extractAnagram_ofBits`). So to
cycle to an anagram leads to the same chord as to press it.
-/

namespace Chordboard

variable {B : Nat} {reg : Registry B}

namespace Pattern

variable {p q mask : Pattern B}

/-- What was put under an empty mask is what is found there. -/
theorem inter_diff_union (within : mask.contains q = true) :
    ((p.diff mask).union q).inter mask = q := by
  refine ext_has fun i _ => ?_
  have hi := contains_iff.1 within i
  rw [has_inter, has_union, has_diff]
  cases hq : q.has i with
  | false => cases p.has i <;> cases mask.has i <;> rfl
  | true => simp [hi hq]

theorem diff_diff_union (within : mask.contains q = true) :
    ((p.diff mask).union q).diff mask = p.diff mask := by
  refine ext_has fun i _ => ?_
  have hi := contains_iff.1 within i
  rw [has_diff, has_union, has_diff]
  cases hq : q.has i with
  | false => cases p.has i <;> cases mask.has i <;> rfl
  | true => simp [hi hq]

end Pattern

namespace Chord

variable {c : Chord B} {mode : Mode B} {number i : Nat} {bits p : Pattern B}

/-- Where no two anagrams have the same switches, a chord chooses the one whose switches are
there. -/
theorem chosenAnagram?_of_getElem? (some : mode.anagramMask.isBlank = false)
    (distinct : mode.anagramChords.Nodup)
    (h : mode.anagramChords[i]? = .some (c.bits.inter mode.anagramMask)) :
    c.chosenAnagram? mode = .some i := by
  obtain ⟨hlt, hchord⟩ := List.getElem?_eq_some_iff.1 h
  rw [chosenAnagram?, some, if_neg Bool.false_ne_true]
  refine List.findIdx?_eq_some_iff_getElem.2 ⟨hlt, beq_iff_eq.2 hchord, ?_⟩
  intro j hj hsame
  have hplace : j = i := by
    rw [beq_iff_eq, ← hchord] at hsame
    exact (distinct.getElem_inj_iff).1 hsame
  exact absurd hplace (Nat.ne_of_lt hj)

/-- The anagram step on a fresh chord. -/
theorem extractAnagram_ofBits (hmode : reg.mode? number = some mode)
    (some : mode.anagramMask.isBlank = false) (distinct : mode.anagramChords.Nodup)
    (h : mode.anagramChords[i]? = .some (bits.inter mode.anagramMask)) :
    (ofBits number bits).extractAnagram reg =
      (ofBits number (bits.diff mode.anagramMask)).onAnagram i := by
  have hfresh : reg.mode? (ofBits number bits).mode = .some mode := hmode
  rw [extractAnagram_eq_onAnagram hfresh rfl (chosenAnagram?_of_getElem? some distinct h)]
  rfl

/-- Moved on, a chord is on another anagram, and that alone is marked as taken out. -/
theorem iterate_cycleAnagram_eq_onAnagram (v : reg.Valid) (c : Chord B)
    (hlt : i < reg.anagramCount c.mode) (k : Nat) :
    (cycleAnagram reg)^[k] (c.onAnagram i) =
      c.onAnagram ((i + k) % reg.anagramCount c.mode) := by
  induction k with
  | zero => rw [Function.iterate_zero_apply, Nat.add_zero, Nat.mod_eq_of_lt hlt]
  | succ k ih =>
      rw [Function.iterate_succ_apply', ih, cycleAnagram_eq_onAnagram v, onAnagram_onAnagram]
      show c.onAnagram (((i + k) % reg.anagramCount c.mode + 1) % reg.anagramCount c.mode) = _
      rw [Nat.mod_add_mod, Nat.add_assoc]

/-- **A cycled chord is the chord one would press.** In a mode whose anagrams have different
switches, all of them under the mask, press a chord with the switches of one of them, take the
anagram out, and move on by any number of anagrams, also around the end. The chord is then on the
anagram that is so many numbers further. With its anagram put back it is the chord that one presses
with the switches of that anagram in the place of the first ones, and to take the anagram out of
that leads to where it was. -/
theorem cycled_as_pressed (valid : reg.validate = .ok ()) (hmode : reg.mode? number = some mode)
    (some : mode.anagramMask.isBlank = false) (distinct : mode.anagramChords.Nodup)
    (within : ∀ p ∈ mode.anagramChords, mode.anagramMask.contains p = true)
    (pressed : bits.inter mode.anagramMask ∈ mode.anagramChords) (k : Nat) :
    ∃ first, mode.anagramChords[first]? = .some (bits.inter mode.anagramMask) ∧
      ((ofBits number bits).extractAnagram reg).anagram = first ∧
      ((cycleAnagram reg)^[k] ((ofBits number bits).extractAnagram reg)).anagram =
        (first + k) % mode.anagramCount ∧
      (∃ p, mode.anagramChords[(first + k) % mode.anagramCount]? = .some p ∧
        ((cycleAnagram reg)^[k] ((ofBits number bits).extractAnagram reg)).restoreAnagram reg =
          ofBits number ((bits.diff mode.anagramMask).union p)) ∧
      ((cycleAnagram reg)^[k] ((ofBits number bits).extractAnagram reg)).bits =
        bits.diff mode.anagramMask ∧
      (((cycleAnagram reg)^[k] ((ofBits number bits).extractAnagram reg)).restoreAnagram
        reg).extractAnagram reg =
          (cycleAnagram reg)^[k] ((ofBits number bits).extractAnagram reg) := by
  have v := Registry.validate_eq_ok_iff.1 valid
  obtain ⟨first, hfirst⟩ := List.mem_iff_getElem?.1 pressed
  have hlength : mode.anagramCount = mode.anagramChords.length := by
    have hpos := List.length_pos_of_mem pressed
    rw [Mode.anagramCount, some, if_neg Bool.false_ne_true]
    omega
  have hcount : reg.anagramCount number = mode.anagramCount := by
    rw [Registry.anagramCount, hmode]
  have hlt : first < reg.anagramCount number := by
    rw [hcount, hlength]
    exact (List.getElem?_eq_some_iff.1 hfirst).1
  have hextract := extractAnagram_ofBits hmode some distinct hfirst
  have hcycled := iterate_cycleAnagram_eq_onAnagram v
    (ofBits number (bits.diff mode.anagramMask)) hlt k
  rw [show (ofBits number (bits.diff mode.anagramMask)).mode = number from rfl, hcount] at hcycled
  -- The number after the moves is again one of the mode, so it has switches of its own.
  have hnext : (first + k) % mode.anagramCount < mode.anagramChords.length := by
    rw [← hlength]
    exact Nat.mod_lt _ mode.anagramCount_pos
  have hmax : (first + k) % mode.anagramCount < maxAnagrams :=
    Nat.lt_of_lt_of_le hnext (v.anagrams_le mode (List.mem_of_getElem? hmode))
  obtain ⟨p, hp⟩ : ∃ p, mode.anagramChords[(first + k) % mode.anagramCount]? = .some p :=
    ⟨_, List.getElem?_eq_getElem hnext⟩
  have hwithin := within p (List.mem_of_getElem? hp)
  have hrestored : ((cycleAnagram reg)^[k] ((ofBits number bits).extractAnagram
      reg)).restoreAnagram reg = ofBits number ((bits.diff mode.anagramMask).union p) := by
    rw [hextract, hcycled]
    exact restoreAnagram_onAnagram hmode hmax hp
  refine ⟨first, hfirst, ?_, ?_, ⟨p, hp, hrestored⟩, ?_, ?_⟩
  · rw [hextract]
    rfl
  · rw [hextract, hcycled]
    rfl
  · rw [hextract, hcycled]
    rfl
  · have hagain : mode.anagramChords[(first + k) % mode.anagramCount]? =
        .some (((bits.diff mode.anagramMask).union p).inter mode.anagramMask) := by
      rw [Pattern.inter_diff_union hwithin]
      exact hp
    rw [hrestored, extractAnagram_ofBits hmode some distinct hagain,
      Pattern.diff_diff_union hwithin, hextract, hcycled]

/-- Of two anagrams the second one is pressed. Three moves lead around the end to the first one. -/
theorem cycled_around_the_end :
    overlappingMods.validate = .ok () ∧
      ((ofBits 0 0x4f).extractAnagram overlappingMods).anagram = 1 ∧
      (((cycleAnagram overlappingMods)^[3] ((ofBits 0 0x4f).extractAnagram
        overlappingMods)).restoreAnagram overlappingMods) = ofBits 0 0x2f := by
  have valid : overlappingMods.validate = .ok () := rfl
  have hmode : overlappingMods.mode? 0 = some overlappingMode := rfl
  have pressed : (0x4f : Pattern 1).inter overlappingMode.anagramMask ∈
      overlappingMode.anagramChords := by decide
  obtain ⟨first, hfirst, hanagram, -, ⟨p, hp, hrestored⟩, -⟩ :=
    cycled_as_pressed valid hmode (by decide) (by decide) (by decide) pressed 3
  have hone : first = 1 := hanagram.symm.trans (by decide)
  subst hone
  have hchord : (0x20 : Pattern 1) = p := Option.some.inj hp
  subst hchord
  exact ⟨valid, hanagram, hrestored⟩

end Chord

end Chordboard
