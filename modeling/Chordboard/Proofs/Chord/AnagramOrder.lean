import Chordboard.Proofs.Chord.Anagrams
import Mathlib.Data.List.Rotate
import Mathlib.Data.Nat.ModEq

/-!
# The anagrams of a chord in their order

The numbers that have a word for a chord stand in a list, the smallest first (`wordAnagrams`). The
search of a cycle command goes through all numbers of the mode, beginning after the chord's own
one and ending with it, so it finds the number that is next in that list, and after the last one
the first (`nextAnagram_eq_onAnagram`).
-/

namespace Chordboard

variable {B : Nat} {reg : Registry B}

/-- Going around a list, beginning after the member `a`, the first one with a property is the
successor of `a` among those that have it. -/
theorem find?_rotate {l front back : List Nat} {p : Nat → Bool} {a i : Nat} (nodup : l.Nodup)
    (split : l = front ++ a :: back) (h : (l.filter p)[i]? = some a) :
    (l.rotate (front.length + 1)).find? p = (l.filter p)[(i + 1) % (l.filter p).length]? := by
  have hp : p a = true := (List.mem_filter.1 (List.mem_of_getElem? h)).2
  have hfilter : l.filter p = (front.filter p ++ [a]) ++ back.filter p := by
    rw [split, List.filter_append, List.filter_cons_of_pos hp, List.append_cons]
  have hrotate : l.rotate (front.length + 1) = back ++ (front ++ [a]) := by
    have hcut : l = (front ++ [a]) ++ back := by rw [split, List.append_cons]
    have hlength : front.length + 1 = (front ++ [a]).length := by simp
    rw [hcut, hlength, List.rotate_append_length_eq]
  have hrotated : (l.rotate (front.length + 1)).filter p =
      (l.filter p).rotate (front.filter p ++ [a]).length := by
    rw [hrotate, hfilter, List.rotate_append_length_eq, List.filter_append, List.filter_append,
      List.filter_singleton, hp]
    rfl
  -- The place of `a` is known, because it stands there only once.
  have hplace : i = (front.filter p).length := by
    have hlt : i < (l.filter p).length := (List.getElem?_eq_some_iff.1 h).1
    have hsame : (l.filter p)[i]? = (l.filter p)[(front.filter p).length]? := by
      rw [h, hfilter]
      simp
    exact (List.getElem?_inj hlt (nodup.filter _)).1 hsame
  have hlength : (front.filter p ++ [a]).length = i + 1 := by
    rw [hplace, List.length_append]
    rfl
  have hpos : 0 < (l.filter p).length :=
    Nat.lt_of_le_of_lt (Nat.zero_le i) (List.getElem?_eq_some_iff.1 h).1
  rw [← List.head?_filter, hrotated, hlength, List.head?_eq_getElem?, List.getElem?_rotate hpos,
    Nat.zero_add]

/-- So many steps around a list lead back to where they began if they are whole rounds. -/
theorem same_place_iff {l : List Nat} (nodup : l.Nodup) {i k a b : Nat} (h : l[i]? = some a)
    (hb : l[(i + k) % l.length]? = some b) : b = a ↔ l.length ∣ k := by
  have hlt : i < l.length := (List.getElem?_eq_some_iff.1 h).1
  have hround : (i + k) % l.length = i ↔ l.length ∣ k := by
    have hmod : i % l.length = i := Nat.mod_eq_of_lt hlt
    have hmodEq : i + k ≡ i [MOD l.length] ↔ l.length ∣ k := Nat.add_modEq_left_iff
    rwa [Nat.ModEq, hmod] at hmodEq
  rw [← hround]
  constructor
  · rintro rfl
    exact ((List.getElem?_inj hlt nodup).1 (h.trans hb.symm)).symm
  · intro hplace
    rw [hplace, h] at hb
    exact (Option.some.inj hb).symm

namespace Chord

/-! ## A chord on another anagram -/

/-- The chord, moved to an anagram number. -/
def onAnagram (c : Chord B) (a : Nat) : Chord B :=
  { c with anagram := a, anagramsTaken := BitVec.twoPow maxAnagrams a }

/-- There is a word for the chord on that anagram. -/
def hasWord (reg : Registry B) (c : Chord B) (a : Nat) : Bool :=
  (reg.lookup .word { c with anagram := a }).isSome

/-- The anagram numbers of the mode that have a word for the chord, the smallest first. -/
def wordAnagrams (reg : Registry B) (c : Chord B) : List Nat :=
  (List.range (reg.anagramCount c.mode)).filter (c.hasWord reg)

variable {c : Chord B}

theorem cycleAnagram_eq_onAnagram (v : reg.Valid) (c : Chord B) :
    c.cycleAnagram reg = c.onAnagram ((c.anagram + 1) % reg.anagramCount c.mode) := by
  rw [cycleAnagram, v.anagramCycle_eq]
  rfl

theorem onAnagram_onAnagram (c : Chord B) (a b : Nat) :
    (c.onAnagram a).onAnagram b = c.onAnagram b := rfl

theorem hasWord_congr {c' : Chord B} (mode : c'.mode = c.mode) (bits : c'.bits = c.bits) :
    c'.hasWord reg = c.hasWord reg := by
  funext a
  exact congrArg Option.isSome (Registry.lookup_congr .word mode bits rfl)

/-- Which anagrams have a word depends on the mode and the switches of a chord alone. -/
theorem wordAnagrams_congr {c' : Chord B} (mode : c'.mode = c.mode) (bits : c'.bits = c.bits) :
    c'.wordAnagrams reg = c.wordAnagrams reg := by
  rw [wordAnagrams, wordAnagrams, mode, hasWord_congr mode bits]

theorem hasWord_onAnagram (reg : Registry B) (c : Chord B) (a : Nat) :
    (c.onAnagram a).hasWord reg = c.hasWord reg := hasWord_congr rfl rfl

theorem wordAnagrams_onAnagram (reg : Registry B) (c : Chord B) (a : Nat) :
    (c.onAnagram a).wordAnagrams reg = c.wordAnagrams reg := wordAnagrams_congr rfl rfl

theorem isSome_lookup_onAnagram (reg : Registry B) (c : Chord B) (a : Nat) :
    (reg.lookup .word (c.onAnagram a)).isSome = c.hasWord reg a :=
  congrArg Option.isSome (Registry.lookup_congr .word rfl rfl rfl)

theorem mem_wordAnagrams {a : Nat} :
    a ∈ c.wordAnagrams reg ↔
      a < reg.anagramCount c.mode ∧ (reg.lookup .word { c with anagram := a }).isSome := by
  rw [wordAnagrams, List.mem_filter, List.mem_range, hasWord]

theorem pairwise_wordAnagrams (reg : Registry B) (c : Chord B) :
    (c.wordAnagrams reg).Pairwise (· < ·) :=
  List.pairwise_lt_range.filter _

theorem nodup_wordAnagrams (reg : Registry B) (c : Chord B) : (c.wordAnagrams reg).Nodup :=
  (pairwise_wordAnagrams reg c).imp Nat.ne_of_lt

end Chord

namespace Engine

open Chord

variable {c : Chord B}

/-- A chord whose word can be sent again is on one of the anagrams that have a word. -/
theorem Resendable.exists_place (h : Resendable reg c) :
    ∃ i : Nat, (c.wordAnagrams reg)[i]? = some c.anagram :=
  List.mem_iff_getElem?.1 (mem_wordAnagrams.2 ⟨h.anagram_lt, h.word⟩)

/-- The search asks for one number after the other, around the end. -/
theorem nextAnagram_of_find? (v : reg.Valid) {count a : Nat} {c : Chord B}
    (h : ((List.range count).map fun j => (c.anagram + 1 + j) % reg.anagramCount c.mode).find?
      (c.hasWord reg) = some a) :
    nextAnagram reg count c = c.onAnagram a := by
  induction count generalizing c with
  | zero => cases h
  | succ count ih =>
      rw [List.range_succ_eq_map, List.map_cons, List.find?_cons, Nat.add_zero, List.map_map] at h
      rw [nextAnagram, cycleAnagram_eq_onAnagram v, isSome_lookup_onAnagram]
      cases hword : c.hasWord reg ((c.anagram + 1) % reg.anagramCount c.mode) with
      | true =>
          rw [hword] at h
          rw [← Option.some.inj h]
          rfl
      | false =>
          rw [hword] at h
          rw [if_neg Bool.false_ne_true, ih, onAnagram_onAnagram]
          rw [hasWord_onAnagram, ← h]
          refine congrArg (List.find? (c.hasWord reg)) (List.map_congr_left fun j _ => ?_)
          show ((c.anagram + 1) % reg.anagramCount c.mode + 1 + j) % reg.anagramCount c.mode =
            (c.anagram + 1 + (j + 1)) % reg.anagramCount c.mode
          rw [Nat.add_assoc, Nat.mod_add_mod, Nat.add_comm 1 j]

/-- **The next anagram.** A chord on one of the anagrams that have a word is moved to the next one
of these, and after the last one to the first. -/
theorem nextAnagram_eq_onAnagram (v : reg.Valid) {i : Nat}
    (h : (c.wordAnagrams reg)[i]? = some c.anagram) :
    ∃ a, (c.wordAnagrams reg)[(i + 1) % (c.wordAnagrams reg).length]? = some a ∧
      nextAnagram reg (reg.anagramCount c.mode) c = c.onAnagram a := by
  have hmem := List.mem_of_getElem? h
  have hlt : c.anagram < reg.anagramCount c.mode := (mem_wordAnagrams.1 hmem).1
  have hpos : (i + 1) % (c.wordAnagrams reg).length < (c.wordAnagrams reg).length :=
    Nat.mod_lt _ (List.length_pos_of_mem hmem)
  obtain ⟨front, back, hsplit⟩ := List.append_of_mem (List.mem_range.2 hlt)
  have hfront : front.length = c.anagram := by
    have hget : (List.range (reg.anagramCount c.mode))[front.length]? = some c.anagram := by
      rw [hsplit]
      simp
    obtain ⟨_, hget⟩ := List.getElem?_eq_some_iff.1 hget
    rw [List.getElem_range] at hget
    exact hget
  have hfind := find?_rotate List.nodup_range hsplit h
  rw [hfront] at hfind
  have hturn : (List.range (reg.anagramCount c.mode)).rotate (c.anagram + 1) =
      (List.range (reg.anagramCount c.mode)).map
        fun j => (c.anagram + 1 + j) % reg.anagramCount c.mode := by
    refine List.ext_getElem (by simp) fun j hj hj' => ?_
    rw [List.getElem_rotate, List.getElem_range, List.getElem_map, List.getElem_range,
      List.length_range, Nat.add_comm]
  rw [hturn] at hfind
  refine ⟨(c.wordAnagrams reg)[(i + 1) % (c.wordAnagrams reg).length],
    List.getElem?_eq_getElem hpos, ?_⟩
  refine nextAnagram_of_find? v ?_
  rw [hfind]
  exact List.getElem?_eq_getElem hpos

end Engine

end Chordboard
