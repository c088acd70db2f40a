import Chordboard.Proofs.Chord.AnagramOrder
import Chordboard.Proofs.Engine.OrderRuns

/-!
# A tour of the anagrams

A word can be replaced by its anagrams, one after the other. Not every anagram number of the mode
has a word for the chord, and which of them have one is only known by looking each of them up. The
commands pass over the others, so they go round through the numbers that have a word, each once,
and lead back to the word that they began with (`anagrams_in_turn`).
-/

namespace Chordboard

variable {B n : Nat} {reg : Registry B}

namespace Engine

open Chord

/-- Moving on to the next anagram again and again goes around the anagrams that have a word. -/
theorem cycleAll_anagram (v : reg.Valid) {c : Chord B} {i : Nat}
    (h : (c.wordAnagrams reg)[i]? = some c.anagram) (k : Nat) :
    ∃ a, (c.wordAnagrams reg)[(i + (k + 1)) % (c.wordAnagrams reg).length]? = some a ∧
      cycleAll reg (List.replicate k .anagram ++ [.anagram]) c = c.onAnagram a := by
  induction k with
  | zero => exact nextAnagram_eq_onAnagram v h
  | succ k ih =>
      obtain ⟨a, hplace, hchord⟩ := ih
      have hnow : ((c.onAnagram a).wordAnagrams reg)[(i + (k + 1)) %
          (c.wordAnagrams reg).length]? = some (c.onAnagram a).anagram := by
        rw [wordAnagrams_onAnagram]
        exact hplace
      obtain ⟨b, hnext, hcycled⟩ := nextAnagram_eq_onAnagram v hnow
      rw [wordAnagrams_onAnagram, Nat.mod_add_mod] at hnext
      refine ⟨b, hnext, ?_⟩
      rw [cycleAll_concat, List.replicate_succ', hchord]
      exact hcycled

/-- **Every anagram in its turn.** In every state that an engine reaches, the last word is on one
of the anagram numbers that have a word for its chord. Commands in a row that ask for the next
anagram go through these numbers, the smallest after the largest. Each sends the word of the
number that it comes to, with the modifiers that the chord has had, and remembers it. The number
of the beginning is reached again where the number of commands is a multiple of how many numbers
there are, and nowhere before. -/
theorem anagrams_in_turn {e₀ : Engine B n} {settings : Settings}
    (h : start reg n settings = .ok e₀) (inputs : List (Input n)) {last : LastWord B}
    (word : (e₀.run reg inputs).1.lastWord = some last) :
    ∃ i : Nat, (last.chord.wordAnagrams reg)[i]? = some last.chord.anagram ∧
      ∀ k o, Obeyed reg (e₀.run reg inputs).1 (List.replicate (k + 1) (.cycle .anagram)) o →
        ∃ a keys,
          (last.chord.wordAnagrams reg)[(i + (k + 1)) %
            (last.chord.wordAnagrams reg).length]? = some a ∧
          (last.chord.onAnagram a).word? reg = some keys ∧
          o.1.lastWord = some ⟨last.chord.onAnagram a, keys.length⟩ ∧
          lastSequence? o.2 = some (keys, (e₀.run reg inputs).1.modsOf reg last.chord) ∧
          (a = last.chord.anagram ↔ (last.chord.wordAnagrams reg).length ∣ k + 1) := by
  obtain ⟨v, -⟩ := start_eq_ok_iff.1 h
  have hresend := wordKept_run h inputs last word
  obtain ⟨i, hi⟩ := hresend.exists_place
  refine ⟨i, hi, fun k o hobeyed => ?_⟩
  obtain ⟨a, hplace, hchord⟩ := cycleAll_anagram v hi k
  have hcommands : List.replicate (k + 1) (Command.cycle .anagram) =
      (List.replicate k Cycle.anagram ++ [Cycle.anagram]).map .cycle := by
    rw [← List.replicate_succ', List.map_replicate]
  rw [hcommands] at hobeyed
  obtain ⟨keys, hword, hlast, hsequence⟩ := word_of_cycles v word hresend _ _ hobeyed
  rw [hchord] at hword hlast hsequence
  exact ⟨a, keys, hplace, hword, hlast, hsequence,
    same_place_iff (nodup_wordAnagrams reg last.chord) hi hplace⟩

/-- Four anagrams for two switches, of which only the numbers 0 and 2 have a word for the chord of
switch 0. Switch 1 gives the command for the next one. -/
def anagramsWithGaps : Registry 1 where
  dictionaries := [
    ⟨[[], [0x00, 1, 0x21, 1]], [[], [4, 5]], .codes⟩,
    ⟨[[], [0x00, 2]], [[], [Command.cycleAnagramCode]], .codes⟩]
  modes := [⟨⟨[], [], [1], [0]⟩, [Pattern.blank, Pattern.blank], 12, [0, 4, 8, 12], false⟩]
  plainMods := []
  wordMods := [0, 1]
  nospace := 0
  capital := 1
  double := none
  shorten := none
  modCount := 2

/-- Two commands lead past both gaps and around to the word of the beginning. -/
theorem tour_of_gaps :
    start anagramsWithGaps 2 .usual = .ok (fresh 1 2 .usual) ∧
      ∃ last, ((fresh 1 2 .usual).run anagramsWithGaps (wordThenCycle.take 6)).1.lastWord =
          some last ∧
        last.chord.wordAnagrams anagramsWithGaps = [0, 2] ∧
        (((fresh 1 2 .usual).run anagramsWithGaps (wordThenCycle.take 6)).1.obey
          anagramsWithGaps (List.replicate 2 (.cycle .anagram))).1.lastWord.map
            (·.chord.anagram) = some last.chord.anagram := by
  have hstart : start anagramsWithGaps 2 .usual = .ok (fresh 1 2 .usual) := rfl
  have hnumbers : (((fresh 1 2 .usual).run anagramsWithGaps
      (wordThenCycle.take 6)).1.lastWord.map
        (·.chord.wordAnagrams anagramsWithGaps)) = some [0, 2] := by decide +kernel
  obtain ⟨last, hlast, htwo⟩ := Option.map_eq_some_iff.1 hnumbers
  obtain ⟨i, -, htour⟩ := anagrams_in_turn hstart (wordThenCycle.take 6) hlast
  obtain ⟨a, keys, -, -, hnow, -, hround⟩ := htour 1 _ .atOnce
  refine ⟨hstart, last, hlast, htwo, ?_⟩
  have hdvd : (last.chord.wordAnagrams anagramsWithGaps).length ∣ 1 + 1 := by
    rw [htwo]
    exact Nat.dvd_refl 2
  rw [hnow, ← hround.2 hdvd]
  rfl

end Engine

end Chordboard
