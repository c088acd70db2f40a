import Chordboard.Proofs.Chord.AnagramOrder
import Chordboard.Proofs.Chord.Capitals
import Chordboard.Proofs.Engine.SentWords

/-!
# What a capital does to a word

A word that is capitalized as it is first sent goes by its own first key, and a first key that is
no letter is left alone. A cycle command settles what a capital means from the word that the chord
stands for at that moment, and from then on it is not settled again, also when the chord has moved
on to another anagram. So a word may be capitalized as suits the first key of another one
(`digit_shifted`), and `first_key_of_word` says that nothing else can go wrong.
-/

namespace Chordboard

variable {B n : Nat} {reg : Registry B}

namespace Chord

/-! ## Where the meaning of a capital comes from -/

/-- The meaning of a capital, if it has been settled for the chord, was settled from the word of
one of the chord's anagrams. -/
def SettledOnAnagram (reg : Registry B) (c : Chord B) : Prop :=
  c.mods.capitalSettled = true → ∃ a other, a ∈ c.wordAnagrams reg ∧
    reg.lookup .word (c.onAnagram a) = some other ∧ c.capitalRule = CapitalRule.ofKeys other

variable {c : Chord B}

theorem lookup_onAnagram_self (reg : Registry B) (c : Chord B) :
    reg.lookup .word (c.onAnagram c.anagram) = reg.lookup .word c :=
  Registry.lookup_congr .word rfl rfl rfl

theorem SettledOnAnagram.congr {c' : Chord B} (h : SettledOnAnagram reg c)
    (mode : c'.mode = c.mode) (bits : c'.bits = c.bits)
    (settled : c'.mods.capitalSettled = c.mods.capitalSettled)
    (rule : c'.capitalRule = c.capitalRule) : SettledOnAnagram reg c' := by
  intro hsettled
  rw [settled] at hsettled
  obtain ⟨a, other, hmem, hother, hrule⟩ := h hsettled
  have hlookup : reg.lookup .word (c'.onAnagram a) = reg.lookup .word (c.onAnagram a) :=
    Registry.lookup_congr .word mode bits rfl
  refine ⟨a, other, ?_, hlookup.trans hother, rule.trans hrule⟩
  rw [wordAnagrams_congr mode bits]
  exact hmem

/-- A capital that is settled now is settled from the word of the chord itself. -/
theorem SettledOnAnagram.settleCapital (h : SettledOnAnagram reg c) {found : List Key}
    (own : c.anagram ∈ c.wordAnagrams reg) (hfound : reg.lookup .word c = some found) :
    SettledOnAnagram reg (c.settleCapital found) := by
  by_cases settled : c.mods.capitalSettled = true
  · rw [settleCapital_of_settled settled]
    exact h
  · intro _
    have hfresh : c.settleCapital found =
        { c with capitalRule := CapitalRule.ofKeys found, mods := c.mods.settleCapital } :=
      if_neg settled
    have hmem : c.anagram ∈ (c.settleCapital found).wordAnagrams reg := by
      have hsame : (c.settleCapital found).wordAnagrams reg = c.wordAnagrams reg := by
        rw [hfresh]
        exact wordAnagrams_congr rfl rfl
      rw [hsame]
      exact own
    have hlookup : reg.lookup .word ((c.settleCapital found).onAnagram c.anagram) =
        some found := by
      rw [hfresh, ← hfound]
      exact Registry.lookup_congr .word rfl rfl rfl
    refine ⟨c.anagram, found, hmem, hlookup, ?_⟩
    rw [hfresh]

/-- For a word that begins with no letter, a capital means nothing, or what it means was settled
from another anagram, whose word begins with a letter. -/
theorem SettledOnAnagram.ruleFor (h : SettledOnAnagram reg c) {entry : List Key} {first : Key}
    (hentry : reg.lookup .word c = some entry) (hfirst : entry.head? = some first)
    (noLetter : KeyCode.isLetter first.code = false) :
    c.ruleFor entry = .keep ∨
      c.mods.capitalSettled = true ∧ ∃ a other letter, a ∈ c.wordAnagrams reg ∧
        a ≠ c.anagram ∧ reg.lookup .word (c.onAnagram a) = some other ∧
        other.head? = some letter ∧ KeyCode.isLetter letter.code = true ∧
        c.ruleFor entry = CapitalRule.ofKeys other := by
  have hown : CapitalRule.ofKeys entry = .keep :=
    (CapitalRule.ofKeys_eq_keep_iff hfirst).2 noLetter
  by_cases settled : c.mods.capitalSettled = true
  · obtain ⟨a, other, hmem, hother, hrule⟩ := h settled
    have hsettled : c.ruleFor entry = CapitalRule.ofKeys other := by
      rw [Chord.ruleFor, if_pos settled, hrule]
    rw [hsettled]
    by_cases keep : CapitalRule.ofKeys other = .keep
    · exact Or.inl keep
    · obtain ⟨letter, rest, rfl⟩ : ∃ letter rest, other = letter :: rest := by
        refine List.exists_cons_of_ne_nil ?_
        rintro rfl
        exact keep rfl
      refine Or.inr ⟨settled, a, _, letter, hmem, ?_, hother, rfl, ?_, rfl⟩
      · rintro rfl
        rw [lookup_onAnagram_self, hentry] at hother
        cases hother
        exact keep hown
      · rw [← Bool.not_eq_false]
        exact fun hno => keep ((CapitalRule.ofKeys_eq_keep_iff rfl).2 hno)
  · -- A capital that is not settled goes by the word itself.
    left
    rw [Chord.ruleFor, if_neg settled, hown]

/-- Nothing is settled yet for a chord that was just assembled. -/
theorem capitalSettled_wordPart (mode : Nat) (bits : Pattern B) :
    ((ofBits mode bits).wordPart reg).mods.capitalSettled = false := by
  have hextract : ∀ (c : Chord B) (p : Pattern B) (id : Nat), c.mods.capitalSettled = false →
      (c.extract p id).mods.capitalSettled = false := by
    intro c p id h
    unfold extract
    split <;> exact h
  have hword : (((ofBits mode bits).extractPlain reg).extractWord reg).mods.capitalSettled =
      false := by
    refine extractWord_keeps (P := fun c => c.mods.capitalSettled = false) hextract reg ?_
    exact extractPlain_keeps (P := fun c => c.mods.capitalSettled = false) hextract reg rfl
  rw [wordPart]
  unfold extractAnagram
  split
  · exact hword
  · split <;> exact hword

end Chord

namespace Engine

open Chord

variable {c : Chord B}

theorem settledOnAnagram_cycleChord (v : reg.Valid) (hr : Resendable reg c)
    (h : SettledOnAnagram reg c) (what : Cycle) :
    SettledOnAnagram reg (cycleChord reg what c) := by
  cases what with
  | anagram =>
      obtain ⟨i, hplace⟩ := hr.exists_place
      obtain ⟨a, -, hnext⟩ := nextAnagram_eq_onAnagram v hplace
      rw [cycleChord, hnext]
      exact h.congr rfl rfl rfl rfl
  | capital =>
      obtain ⟨found, hfound⟩ := Option.isSome_iff_exists.1 hr.word
      have hkeys : (reg.lookup .word c).getD [] = found := by rw [hfound, Option.getD_some]
      rw [cycleChord, hkeys]
      have hsettled := h.settleCapital (mem_wordAnagrams.2 ⟨hr.anagram_lt, hr.word⟩) hfound
      exact hsettled.congr rfl rfl rfl rfl
  | nospace => exact h.congr rfl rfl rfl rfl

theorem settledOnAnagram_run (v : reg.Valid) (settings : Settings) (inputs : List (Input n)) :
    WordHas (fun c => Resendable reg c ∧ SettledOnAnagram reg c)
      ((fresh B n settings).run reg inputs).1 := by
  refine wordHas_run ?_ ?_ settings inputs
  · intro mode bits hfound
    refine ⟨resendable_wordPart hfound, fun hsettled => ?_⟩
    rw [capitalSettled_wordPart] at hsettled
    cases hsettled
  · rintro c what ⟨hr, hc⟩
    exact ⟨hr.cycleChord v what, settledOnAnagram_cycleChord v hr hc what⟩

/-! ## The first key of a word -/

/-- **Only letters, if it is settled by the word.** In every state that an engine reaches, the last
word was made from an entry of the dictionary, and it is the last sequence that was reported. (Each
word that is sent, or sent again, is the last word of the state that its step leads to.) Suppose
that the entry begins with a key that is no letter, and that the edits leave a key. Then the keys
that were reported begin with a key of the same code. It has the same modifiers as well, unless the
chord is capitalized, and what a capital means was settled from another anagram of the chord, whose
entry begins with a letter. -/
theorem first_key_of_word {e₀ : Engine B n} {settings : Settings}
    (h : start reg n settings = .ok e₀) (inputs : List (Input n)) {last : LastWord B}
    (word : (e₀.run reg inputs).1.lastWord = some last) :
    ∃ entry keys mods, reg.lookup .word last.chord = some entry ∧
      lastSequence? (e₀.run reg inputs).2 = some (keys, mods) ∧
      (last.chord.editLength reg entry ≠ [] →
        ∀ first, entry.head? = some first → KeyCode.isLetter first.code = false →
          ∃ sent, keys.head? = some sent ∧ sent.code = first.code ∧
            (sent.mods = first.mods ∨
              last.chord.hasCapital reg = true ∧ last.chord.mods.capitalSettled = true ∧
                ∃ a other letter, a ∈ last.chord.wordAnagrams reg ∧ a ≠ last.chord.anagram ∧
                  reg.lookup .word (last.chord.onAnagram a) = some other ∧
                  other.head? = some letter ∧ KeyCode.isLetter letter.code = true ∧
                  sent = (CapitalRule.ofKeys other).change first)) := by
  obtain ⟨v, rfl⟩ := start_eq_ok_iff.1 h
  obtain ⟨hresend, hsettledBy⟩ := settledOnAnagram_run v settings inputs last word
  obtain ⟨entry, hentry⟩ := Option.isSome_iff_exists.1 hresend.word
  obtain ⟨keys, said, hword, hreported⟩ := lastReported_run settings inputs word
  refine ⟨entry, keys, _, hentry, hreported.lastSequence?, fun some first hfirst noLetter => ?_⟩
  have hkeys : keys = last.chord.spell reg entry := by
    rw [word?, hentry, Option.map_some] at hword
    exact (Option.some.inj hword).symm
  have hhead := head?_spell some
  rw [← hkeys, hfirst, Option.map_some] at hhead
  refine ⟨_, hhead, ?_⟩
  by_cases capital : last.chord.hasCapital reg = true
  · rw [if_pos capital]
    refine ⟨CapitalRule.code_change .., ?_⟩
    rcases hsettledBy.ruleFor hentry hfirst noLetter with
      hkeep | ⟨hsettled, a, other, letter, hmem, hne, hother, hletter, his, hrule⟩
    · left
      rw [hkeep]
      rfl
    · refine Or.inr ⟨capital, hsettled, a, other, letter, hmem, hne, hother, hletter, his, ?_⟩
      rw [hrule]
  · rw [if_neg capital]
    exact ⟨rfl, Or.inl rfl⟩

/-- A registry for three switches. Switch 0 is a word with two anagrams, the letter A and the digit
1. Switch 1 gives the command for a capital and switch 2 the one for the next anagram. -/
def letterOrDigit : Registry 1 where
  dictionaries := [
    ⟨[[], [0x00, 1, 0x11, 1]], [[], [KeyCode.letterA, KeyCode.digit1]], .codes⟩,
    ⟨[[], [0x00, 2, 0x01, 4]],
      [[], [Command.cycleCapitalCode, Command.cycleAnagramCode]], .codes⟩]
  modes := [⟨⟨[], [], [1], [0]⟩, [Pattern.blank, Pattern.blank], 8, [0, 8], false⟩]
  plainMods := []
  wordMods := [0, 1]
  nospace := 0
  capital := 1
  double := none
  shorten := none
  modCount := 2

/-- Switches 0, 1 and 2 are pressed in turn, each after the release of the one before. -/
def capitalThenAnagram : List (Input 3) :=
  [.tick 0 (·.val == 0), .tick 10000 (·.val == 0), .tick 40000 (·.val == 0),
    .tick 50000 fun _ => false, .tick 60000 fun _ => false, .tick 90000 fun _ => false,
    .tick 100000 (·.val == 1), .tick 110000 (·.val == 1), .tick 140000 (·.val == 1),
    .tick 150000 fun _ => false, .tick 160000 fun _ => false, .tick 190000 fun _ => false,
    .tick 200000 (·.val == 2), .tick 210000 (·.val == 2), .tick 240000 (·.val == 2)]

/-- At the end of the run the word is the digit. -/
theorem lastWord_letterOrDigit :
    ∃ last, ((fresh 1 3 .usual).run letterOrDigit capitalThenAnagram).1.lastWord = some last ∧
      letterOrDigit.lookup .word last.chord = some [Key.plain KeyCode.digit1] ∧
      last.chord.editLength letterOrDigit [Key.plain KeyCode.digit1] =
        [Key.plain KeyCode.digit1] := by
  have hword : (((fresh 1 3 .usual).run letterOrDigit capitalThenAnagram).1.lastWord.map
      fun last => (letterOrDigit.lookup .word last.chord,
        last.chord.editLength letterOrDigit [Key.plain KeyCode.digit1])) =
      some (some [Key.plain KeyCode.digit1], [Key.plain KeyCode.digit1]) := by decide +kernel
  obtain ⟨last, hlast, hfound⟩ := Option.map_eq_some_iff.1 hword
  exact ⟨last, hlast, Prod.mk.inj hfound⟩

/-- It has been shifted, because the letter was capitalized. -/
theorem shifted_by_other_anagram :
    start letterOrDigit 3 .usual = .ok (fresh 1 3 .usual) ∧
      ∃ last, ((fresh 1 3 .usual).run letterOrDigit capitalThenAnagram).1.lastWord = some last ∧
        last.chord.mods.capitalSettled = true ∧
        ∃ a other letter, a ≠ last.chord.anagram ∧
          letterOrDigit.lookup .word (last.chord.onAnagram a) = some other ∧
          other.head? = some letter ∧ KeyCode.isLetter letter.code = true := by
  have hstart : start letterOrDigit 3 .usual = .ok (fresh 1 3 .usual) := rfl
  have hreported : lastSequence? ((fresh 1 3 .usual).run letterOrDigit capitalThenAnagram).2 =
      some ([⟨KeyCode.digit1, Modifier.leftShift⟩, Chord.spaceKey], 0) := by decide +kernel
  obtain ⟨last, hlast, hlookup, hedited⟩ := lastWord_letterOrDigit
  obtain ⟨entry, keys, mods, hentry, hsequence, hfirst⟩ :=
    first_key_of_word hstart capitalThenAnagram hlast
  have hkey : entry = [Key.plain KeyCode.digit1] := Option.some.inj (hentry.symm.trans hlookup)
  have hkeys : keys = [⟨KeyCode.digit1, Modifier.leftShift⟩, Chord.spaceKey] :=
    (Prod.mk.inj (Option.some.inj (hsequence.symm.trans hreported))).1
  rw [hkey, hedited, hkeys] at hfirst
  obtain ⟨sent, hsent, -, hmods⟩ := hfirst (List.cons_ne_nil _ _) _ rfl rfl
  obtain rfl : _ = sent := Option.some.inj hsent
  rcases hmods with hsame | ⟨-, hsettled, a, other, letter, -, hne, hother, hletter, his, -⟩
  · exact absurd hsame (by decide)
  · exact ⟨hstart, last, hlast, hsettled, a, other, letter, hne, hother, hletter, his⟩

/-- **A shifted digit.** The letter is sent, its capital, and then the next anagram: the entry of
the dictionary is a digit without modifiers, and what is sent for it is the digit with shift. -/
theorem digit_shifted :
    start letterOrDigit 3 .usual = .ok (fresh 1 3 .usual) ∧
      ∃ last, ((fresh 1 3 .usual).run letterOrDigit capitalThenAnagram).1.lastWord = some last ∧
        letterOrDigit.lookup .word last.chord = some [Key.plain KeyCode.digit1] ∧
        KeyCode.isLetter KeyCode.digit1 = false ∧
        last.chord.editLength letterOrDigit [Key.plain KeyCode.digit1] ≠ [] ∧
        lastSequence? ((fresh 1 3 .usual).run letterOrDigit capitalThenAnagram).2 =
          some ([⟨KeyCode.digit1, Modifier.leftShift⟩, Chord.spaceKey], 0) := by
  obtain ⟨last, hlast, hlookup, hedited⟩ := lastWord_letterOrDigit
  refine ⟨rfl, last, hlast, hlookup, rfl, ?_, by decide +kernel⟩
  rw [hedited]
  exact List.cons_ne_nil _ _

end Engine

end Chordboard
