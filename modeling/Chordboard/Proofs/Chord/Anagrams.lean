import Chordboard.Engine.Word
import Chordboard.Proofs.Engine.Outcomes
import Mathlib.Logic.Function.Iterate

/-!
# Anagrams of a chord

A chord chooses an anagram of its mode, and a cycle command moves it on from
there, past the numbers that have no word. On a registry without defects the
numbers come around after as many moves as there are anagrams, so the search
ends at the chord that it began with if it finds nothing before.
-/

namespace Chordboard

variable {B : Nat} {reg : Registry B}

/-- A lookup only reads the mode of a chord, its switches and its anagram. -/
theorem Registry.lookup_congr {c c' : Chord B} (kind : EntryKind) (mode : c.mode = c'.mode)
    (bits : c.bits = c'.bits) (anagram : c.anagram = c'.anagram) :
    reg.lookup kind c = reg.lookup kind c' := by
  rw [lookup, lookup, mode, bits, anagram]

namespace Chord

/-! ## The anagram of a chord -/

theorem anagram_ofBits (mode : Nat) (bits : Pattern B) : (ofBits mode bits).anagram = 0 := rfl

theorem anagram_extract (c : Chord B) (p : Pattern B) (id : Nat) :
    (c.extract p id).anagram = c.anagram := by
  unfold extract
  split <;> rfl

theorem anagram_extractPlain (reg : Registry B) (c : Chord B) :
    (c.extractPlain reg).anagram = c.anagram := by
  refine extractPlain_keeps (P := fun c' => c'.anagram = c.anagram) ?_ reg rfl
  intro c' p id h
  rw [anagram_extract, h]

theorem anagram_extractWord (reg : Registry B) (c : Chord B) :
    (c.extractWord reg).anagram = c.anagram := by
  refine extractWord_keeps (P := fun c' => c'.anagram = c.anagram) ?_ reg rfl
  intro c' p id h
  rw [anagram_extract, h]

/-- The number that the switches of a chord choose is one of the mode's. -/
theorem chosenAnagram?_lt {c : Chord B} {mode : Mode B} {i : Nat}
    (h : c.chosenAnagram? mode = some i) : i < mode.anagramCount := by
  unfold chosenAnagram? at h
  by_cases hmask : mode.anagramMask.isBlank = true
  · rw [if_pos hmask] at h
    cases h
  · rw [if_neg hmask] at h
    obtain ⟨hlt, -⟩ := List.findIdx?_eq_some_iff_getElem.1 h
    rw [Mode.anagramCount, if_neg hmask]
    exact Nat.lt_of_lt_of_le hlt (Nat.le_max_left ..)

/-- A chord that was just assembled ends up on an anagram of its mode. -/
theorem anagram_wordPart_lt {c : Chord B} (h : c.anagram = 0) :
    (c.wordPart reg).anagram < reg.anagramCount c.mode := by
  have hzero : ((c.extractPlain reg).extractWord reg).anagram = 0 := by
    rw [anagram_extractWord, anagram_extractPlain, h]
  have hmode : ((c.extractPlain reg).extractWord reg).mode = c.mode := by
    rw [mode_extractWord, mode_extractPlain]
  rw [wordPart, extractAnagram, hmode]
  cases hm : reg.mode? c.mode with
  | none =>
      dsimp only
      rw [hzero]
      exact reg.anagramCount_pos c.mode
  | some mode =>
      dsimp only
      cases hchosen : ((c.extractPlain reg).extractWord reg).chosenAnagram? mode with
      | none =>
          dsimp only
          rw [hzero]
          exact reg.anagramCount_pos c.mode
      | some i =>
          rw [Registry.anagramCount, hm]
          exact chosenAnagram?_lt hchosen

/-! ## Moving on -/

@[simp] theorem mode_cycleAnagram_iterate (c : Chord B) (k : Nat) :
    ((cycleAnagram reg)^[k] c).mode = c.mode := by
  induction k generalizing c with
  | zero => rfl
  | succ k ih => rw [Function.iterate_succ_apply, ih]; rfl

@[simp] theorem bits_cycleAnagram_iterate (c : Chord B) (k : Nat) :
    ((cycleAnagram reg)^[k] c).bits = c.bits := by
  induction k generalizing c with
  | zero => rfl
  | succ k ih => rw [Function.iterate_succ_apply, ih]; rfl

/-- After `k` moves a chord is `k` anagrams further, around the end. -/
theorem anagram_cycleAnagram_iterate {c : Chord B} (h : c.anagram < reg.anagramCycle c.mode)
    (k : Nat) :
    ((cycleAnagram reg)^[k] c).anagram = (c.anagram + k) % reg.anagramCycle c.mode := by
  induction k with
  | zero => exact (Nat.mod_eq_of_lt h).symm
  | succ k ih =>
      rw [Function.iterate_succ_apply', cycleAnagram, mode_cycleAnagram_iterate, ih,
        Nat.mod_add_mod, Nat.add_assoc]

/-- A capital leaves alone what a lookup reads. -/
theorem frame_cycleCapital (reg : Registry B) (c : Chord B) (keys : List Key) :
    (c.cycleCapital reg keys).mode = c.mode ∧ (c.cycleCapital reg keys).bits = c.bits ∧
      (c.cycleCapital reg keys).anagram = c.anagram := by
  unfold cycleCapital settleCapital
  split <;> exact ⟨rfl, rfl, rfl⟩

end Chord

namespace Engine

open Chord

/-- The search stops at a word, or after all of its moves. -/
theorem exists_nextAnagram_eq (count : Nat) (c : Chord B) :
    ∃ k ≤ count, nextAnagram reg count c = (cycleAnagram reg)^[k] c ∧
      (k = count ∨ (reg.lookup .word (nextAnagram reg count c)).isSome) := by
  induction count generalizing c with
  | zero => exact ⟨0, Nat.le_refl 0, rfl, Or.inl rfl⟩
  | succ count ih =>
      rw [nextAnagram]
      by_cases hword : (reg.lookup .word (c.cycleAnagram reg)).isSome = true
      · rw [if_pos hword]
        exact ⟨1, Nat.succ_le_succ (Nat.zero_le count), rfl, Or.inr hword⟩
      · rw [if_neg hword]
        obtain ⟨k, hk, heq, hstop⟩ := ih (c.cycleAnagram reg)
        exact ⟨k + 1, Nat.succ_le_succ hk, heq, hstop.imp_left (congrArg (· + 1))⟩

@[simp] theorem mode_nextAnagram (reg : Registry B) (count : Nat) (c : Chord B) :
    (nextAnagram reg count c).mode = c.mode := by
  obtain ⟨k, -, heq, -⟩ := @exists_nextAnagram_eq B reg count c
  rw [heq, mode_cycleAnagram_iterate]

/-- A cycle command stays in the mode of the chord. -/
@[simp] theorem mode_cycleChord (reg : Registry B) (what : Cycle) (c : Chord B) :
    (cycleChord reg what c).mode = c.mode := by
  cases what with
  | anagram => exact mode_nextAnagram reg (reg.anagramCount c.mode) c
  | capital => exact (frame_cycleCapital reg c _).1
  | nospace => rfl

/-- A chord whose word can be sent again: the word is found, and the anagram is
one of the mode's. -/
structure Resendable (reg : Registry B) (c : Chord B) : Prop where
  word : (reg.lookup .word c).isSome
  anagram_lt : c.anagram < reg.anagramCount c.mode

theorem Resendable.congr {c c' : Chord B} (h : Resendable reg c) (mode : c'.mode = c.mode)
    (bits : c'.bits = c.bits) (anagram : c'.anagram = c.anagram) : Resendable reg c' := by
  constructor
  · rw [Registry.lookup_congr .word mode bits anagram]
    exact h.word
  · rw [mode, anagram]
    exact h.anagram_lt

/-- **Cycling keeps a word.** Every cycle command leads to a chord whose word can
be sent again. -/
theorem Resendable.cycleChord (v : reg.Valid) {c : Chord B} (h : Resendable reg c)
    (what : Cycle) : Resendable reg (cycleChord reg what c) := by
  cases what with
  | anagram =>
      have hcycle := v.anagramCycle_eq c.mode
      have hlt : c.anagram < reg.anagramCycle c.mode := by
        rw [hcycle]
        exact h.anagram_lt
      obtain ⟨k, -, heq, hstop⟩ := exists_nextAnagram_eq (reg.anagramCount c.mode) c
      have hmode := mode_nextAnagram reg (reg.anagramCount c.mode) c
      have hanagram : (nextAnagram reg (reg.anagramCount c.mode) c).anagram =
          (c.anagram + k) % reg.anagramCount c.mode := by
        rw [heq, anagram_cycleAnagram_iterate hlt, hcycle]
      rw [Engine.cycleChord]
      constructor
      · rcases hstop with hround | hword
        · -- All numbers were passed over: the chord is back at its own.
          have hback : (nextAnagram reg (reg.anagramCount c.mode) c).anagram = c.anagram := by
            rw [hanagram, hround, Nat.add_mod_right, Nat.mod_eq_of_lt h.anagram_lt]
          have hbits : (nextAnagram reg (reg.anagramCount c.mode) c).bits = c.bits := by
            rw [heq, bits_cycleAnagram_iterate]
          rw [Registry.lookup_congr .word hmode hbits hback]
          exact h.word
        · exact hword
      · rw [hanagram, hmode]
        exact Nat.mod_lt _ (reg.anagramCount_pos c.mode)
  | capital =>
      obtain ⟨hmode, hbits, hanagram⟩ := frame_cycleCapital reg c ((reg.lookup .word c).getD [])
      exact h.congr hmode hbits hanagram
  | nospace => exact ⟨h.word, h.anagram_lt⟩

end Engine

end Chordboard
