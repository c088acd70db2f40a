import Chordboard.Proofs.Chord.Capitals
import Chordboard.Proofs.Engine.OrderRuns

/-!
# Capitals and spaces, turned on and off

The command for a capital and the one for a space turn one modifier of the last word and send it
again. Given twice, either of them sends what was sent before; given one after the other, it does
not matter which comes first (`toggles_undone`). For the capital this takes more than turning a
flag twice, because the first command settles what a capital means, and it settles it from the keys
of the dictionary, where the word that was sent before went by the keys it was edited to.
-/

namespace Chordboard

variable {B n : Nat} {reg : Registry B}

namespace Engine

open Chord

variable {c : Chord B}

/-! ## Two commands in a row -/

theorem word?_settleCapital {found : List Key} (h : reg.lookup .word c = some found) :
    (c.settleCapital found).word? reg = c.word? reg := by
  have hlookup : reg.lookup .word (c.settleCapital found) = reg.lookup .word c := by
    unfold settleCapital
    split <;> exact Registry.lookup_congr .word rfl rfl rfl
  rw [word?, word?, hlookup, h, Option.map_some, Option.map_some, spell_settleCapital]

/-- A capital or a space that is turned twice leaves the word and its modifiers as they were. -/
theorem word?_of_toggled_twice (h : (reg.lookup .word c).isSome) {what : Cycle}
    (toggle : what ≠ .anagram) :
    (cycleAll reg [what, what] c).word? reg = c.word? reg ∧
      (cycleAll reg [what, what] c).modByte reg = c.modByte reg := by
  cases what with
  | anagram => exact absurd rfl toggle
  | capital =>
      obtain ⟨found, hfound⟩ := Option.isSome_iff_exists.1 h
      have hsettled : cycleAll reg [.capital, .capital] c = c.settleCapital found := by
        have hkeys : (reg.lookup .word c).getD [] = found := by rw [hfound, Option.getD_some]
        rw [← hkeys]
        exact cycleCapital_cycleCapital c _ _
      rw [hsettled]
      exact ⟨word?_settleCapital hfound, modByte_settleCapital c found⟩
  | nospace =>
      have hsame : cycleAll reg [.nospace, .nospace] c = c := cycleNospace_cycleNospace c
      rw [hsame]
      exact ⟨rfl, rfl⟩

theorem cycleAll_nospace_capital (reg : Registry B) (c : Chord B) :
    cycleAll reg [.nospace, .capital] c = cycleAll reg [.capital, .nospace] c := by
  have hlookup : reg.lookup .word (c.cycleNospace reg) = reg.lookup .word c :=
    Registry.lookup_congr .word rfl rfl rfl
  show (c.cycleNospace reg).cycleCapital reg ((reg.lookup .word (c.cycleNospace reg)).getD []) =
    (c.cycleCapital reg ((reg.lookup .word c).getD [])).cycleNospace reg
  rw [hlookup, cycleNospace_cycleCapital]

/-! ## Words that are sent again -/

/-- **Capitals and spaces, turned on and off.** In every state that an engine reaches, the last
word is the last sequence that was reported. Two commands in a row that both turn its capital, or
both its space, report the same keys again, with the same modifiers unless the sticky ones are
others than when the word was reported. One command of each kind comes to the same in both orders:
the same sequence is reported at the end, and the same word is remembered. -/
theorem toggles_undone {e₀ : Engine B n} {settings : Settings}
    (h : start reg n settings = .ok e₀) (inputs : List (Input n)) {last : LastWord B}
    (word : (e₀.run reg inputs).1.lastWord = some last) :
    (∃ keys mods said, LastReported reg e₀ inputs (keys, mods) said ∧
      ∀ what, what ≠ .anagram →
        ∀ o, Obeyed reg (e₀.run reg inputs).1 [.cycle what, .cycle what] o →
          ∃ mods', lastSequence? o.2 = some (keys, mods') ∧
            ((e₀.run reg inputs).1.sticky = said.sticky → mods' = mods)) ∧
      ∀ o o', Obeyed reg (e₀.run reg inputs).1 [.cycle .capital, .cycle .nospace] o →
        Obeyed reg (e₀.run reg inputs).1 [.cycle .nospace, .cycle .capital] o' →
          ∃ now sequence, o.1.lastWord = some now ∧ o'.1.lastWord = some now ∧
            lastSequence? o.2 = some sequence ∧ lastSequence? o'.2 = some sequence := by
  have hresend := wordKept_run h inputs last word
  obtain ⟨v, rfl⟩ := start_eq_ok_iff.1 h
  constructor
  · obtain ⟨keys, said, hword, hsaid⟩ := lastReported_run settings inputs word
    refine ⟨keys, _, said, hsaid, fun what toggle o hobeyed => ?_⟩
    obtain ⟨keys', hword', -, hsequence⟩ := word_of_cycles v word hresend [what] what hobeyed
    obtain ⟨hkeys, hmods⟩ := word?_of_toggled_twice hresend.word toggle
    have hsame : keys' = keys := Option.some.inj (hword'.symm.trans (hkeys.trans hword))
    rw [hsame] at hsequence
    refine ⟨_, hsequence, fun sticky => ?_⟩
    rw [modsOf, modsOf, sticky, ← hmods]
    rfl
  · intro o o' hobeyed hobeyed'
    obtain ⟨keys, hword, hnow, hsequence⟩ :=
      word_of_cycles v word hresend [.capital] .nospace hobeyed
    obtain ⟨keys', hword', hnow', hsequence'⟩ :=
      word_of_cycles v word hresend [.nospace] .capital hobeyed'
    have hchord := cycleAll_nospace_capital reg last.chord
    rw [List.singleton_append] at hword hnow hsequence hword' hnow' hsequence'
    rw [hchord] at hword' hnow' hsequence'
    have hsame : keys' = keys := Option.some.inj (hword'.symm.trans hword)
    rw [hsame] at hnow' hsequence'
    exact ⟨_, _, hnow, hnow', hsequence, hsequence'⟩

/-- A word that is sent again after shift was sticky for a while. -/
theorem toggles_undone_spacedWord :
    start spacedWord 3 .usual = .ok (fresh 1 3 .usual) ∧
      ((fresh 1 3 .usual).run spacedWord wordThenSticky).1.lastWord.isSome ∧
      (∃ keys mods mods',
        lastSequence? ((fresh 1 3 .usual).run spacedWord wordThenSticky).2 = some (keys, mods) ∧
        lastSequence? (((fresh 1 3 .usual).run spacedWord wordThenSticky).1.obey spacedWord
          [.cycle .capital, .cycle .capital]).2 = some (keys, mods')) ∧
      lastSequence? (((fresh 1 3 .usual).run spacedWord wordThenSticky).1.obey spacedWord
          [.cycle .capital, .cycle .nospace]).2 =
        lastSequence? (((fresh 1 3 .usual).run spacedWord wordThenSticky).1.obey spacedWord
          [.cycle .nospace, .cycle .capital]).2 := by
  have hstart : start spacedWord 3 .usual = .ok (fresh 1 3 .usual) := rfl
  have hword : ((fresh 1 3 .usual).run spacedWord wordThenSticky).1.lastWord.isSome := by
    decide +kernel
  obtain ⟨last, hlast⟩ := Option.isSome_iff_exists.1 hword
  obtain ⟨⟨keys, mods, said, hsaid, htwice⟩, hboth⟩ :=
    toggles_undone hstart wordThenSticky hlast
  obtain ⟨mods', hsequence, -⟩ := htwice .capital (by decide) _ .atOnce
  obtain ⟨-, sequence, -, -, hfirst, hsecond⟩ := hboth _ _ .atOnce .atOnce
  exact ⟨hstart, hword, ⟨keys, mods, mods', hsaid.lastSequence?, hsequence⟩,
    hfirst.trans hsecond.symm⟩

end Engine

end Chordboard
