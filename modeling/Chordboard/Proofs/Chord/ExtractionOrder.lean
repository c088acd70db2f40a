import Chordboard.Proofs.Chord.Conservation

/-!
# The order of extraction

Where the modifiers of a mode share no switches with each other, nor with the anagram mask, each
extraction goes past the others (`GoesPast`): it does not change which of the other modifiers are
there, and it makes no difference whether it comes before or after one of them is taken out. So
the lists of modifiers and the three steps can be put in any order (`extracted_in_any_order`).
-/

namespace Chordboard

variable {B : Nat} {reg : Registry B}

namespace Pattern

variable {p q r : Pattern B}

theorem diff_right_comm (p q r : Pattern B) : (p.diff q).diff r = (p.diff r).diff q := by
  refine ext_has fun i _ => ?_
  simp only [has_diff]
  exact Bool.and_right_comm ..

/-- What is taken out elsewhere makes no difference here. -/
theorem inter_diff_of_apart (apart : q.inter r = blank) : (p.diff q).inter r = p.inter r := by
  refine ext_has fun i _ => ?_
  rw [has_inter, has_diff, has_inter]
  cases hq : q.has i with
  | false => simp
  | true => rw [inter_eq_blank_iff.1 apart i hq, Bool.and_false, Bool.and_false]

end Pattern

theorem ModFlags.set_comm (f : ModFlags) (a b : Nat) : (f.set a).set b = (f.set b).set a := by
  refine ModFlags.ext_has (fun id _ => ?_) rfl
  simp only [has_set]
  exact Bool.or_right_comm ..

/-! ## Modifiers that are apart -/

/-- The modifiers that are taken out of chords. -/
def Registry.modIds (reg : Registry B) : List Nat :=
  reg.plainMods.map PlainMod.id ++ reg.wordMods

/-- The modifiers of a mode are all different, and no two of them share a switch, nor does one of
them with the anagrams. -/
structure ModsApart (reg : Registry B) (mode : Mode B) : Prop where
  nodup : reg.modIds.Nodup
  mods : ∀ a ∈ reg.modIds, ∀ b ∈ reg.modIds, a ≠ b →
    (mode.modChord a).inter (mode.modChord b) = Pattern.blank
  mask : ∀ a ∈ reg.modIds, (mode.modChord a).inter mode.anagramMask = Pattern.blank

namespace ModsApart

variable {mode : Mode B}

/-- Whether modifiers are apart does not depend on the order in which they are listed. -/
theorem perm {reg' : Registry B} (h : ModsApart reg mode) (same : reg'.modIds.Perm reg.modIds) :
    ModsApart reg' mode where
  nodup := same.nodup_iff.2 h.nodup
  mods a ha b hb := h.mods a (same.subset ha) b (same.subset hb)
  mask a ha := h.mask a (same.subset ha)

theorem plain_mem {m : PlainMod} (hm : m ∈ reg.plainMods) : m.id ∈ reg.modIds :=
  List.mem_append_left _ (List.mem_map_of_mem hm)

theorem word_mem {id : Nat} (hid : id ∈ reg.wordMods) : id ∈ reg.modIds :=
  List.mem_append_right _ hid

/-- A plain modifier shares no switch with a word modifier. -/
theorem plain_word (h : ModsApart reg mode) {m : PlainMod} (hm : m ∈ reg.plainMods) {id : Nat}
    (hid : id ∈ reg.wordMods) : (mode.modChord m.id).inter (mode.modChord id) = Pattern.blank := by
  have hne : m.id ≠ id :=
    (List.nodup_append.1 h.nodup).2.2 m.id (List.mem_map_of_mem hm) id hid
  exact h.mods m.id (plain_mem hm) id (word_mem hid) hne

end ModsApart

namespace Chord

variable {c : Chord B} {p q : Pattern B} {mode : Mode B} {id : Nat}

/-! ## Two extractions -/

theorem extract_of_offers (h : c.offers p = true) :
    c.extract p id = { c with bits := c.bits.diff p, mods := c.mods.set id } := if_pos h

theorem extract_of_not_offers (h : c.offers p = false) : c.extract p id = c := by
  rw [extract, h]
  rfl

/-- Whether a pattern is there depends on what the chord has of it. -/
theorem offers_congr {c' : Chord B} (h : c'.bits.inter p = c.bits.inter p) :
    c'.offers p = c.offers p := by
  rw [offers, offers, Pattern.contains, Pattern.contains, h]

theorem inter_extract_of_apart (apart : p.inter q = Pattern.blank) :
    (c.extract p id).bits.inter q = c.bits.inter q := by
  unfold extract
  split
  · exact Pattern.inter_diff_of_apart apart
  · rfl

/-- Modifiers that share no switch can be taken out in any order. -/
theorem extract_comm (apart : p.inter q = Pattern.blank) (c : Chord B) (a b : Nat) :
    (c.extract p a).extract q b = (c.extract q b).extract p a := by
  have hq : (c.extract p a).offers q = c.offers q := offers_congr (inter_extract_of_apart apart)
  have hp : (c.extract q b).offers p = c.offers p := by
    rw [Pattern.inter_comm] at apart
    exact offers_congr (inter_extract_of_apart apart)
  cases offersP : c.offers p with
  | false =>
      rw [extract_of_not_offers offersP, extract_of_not_offers (hp.trans offersP)]
  | true =>
      cases offersQ : c.offers q with
      | false =>
          rw [extract_of_not_offers offersQ, extract_of_not_offers (hq.trans offersQ)]
      | true =>
          rw [extract_of_offers (hq.trans offersQ), extract_of_offers (hp.trans offersP),
            extract_of_offers offersP, extract_of_offers offersQ]
          dsimp only
          rw [Pattern.diff_right_comm, ModFlags.set_comm]

/-! ## Steps that go past a modifier -/

/-- A step that neither changes whether the modifier is there, nor what it is to take it out. -/
structure GoesPast (reg : Registry B) (mode : Mode B) (id : Nat) (step : Chord B → Chord B) :
    Prop where
  offers : ∀ c, reg.mode? c.mode = some mode →
    (step c).offers (mode.modChord id) = c.offers (mode.modChord id)
  extract : ∀ c, reg.mode? c.mode = some mode →
    step (c.extract (mode.modChord id) id) = (step c).extract (mode.modChord id) id

theorem goesPast_extract {a : Nat}
    (apart : (mode.modChord a).inter (mode.modChord id) = Pattern.blank) :
    GoesPast reg mode id fun c => c.extract (mode.modChord a) a where
  offers _ _ := offers_congr (inter_extract_of_apart apart)
  extract c _ := (extract_comm apart c a id).symm

/-- The anagram step only looks at what the chord has of the mask, and only takes that. -/
theorem goesPast_extractAnagram
    (apart : (mode.modChord id).inter mode.anagramMask = Pattern.blank) :
    GoesPast reg mode id (extractAnagram reg) := by
  have hoffers : ∀ c : Chord B, reg.mode? c.mode = some mode →
      (c.extractAnagram reg).offers (mode.modChord id) = c.offers (mode.modChord id) := by
    intro c hmode
    refine offers_congr ?_
    cases chosen : c.chosenAnagram? mode with
    | none => rw [extractAnagram_of_not_chosen hmode chosen]
    | some i =>
        rw [extractAnagram_of_chosen hmode chosen]
        rw [Pattern.inter_comm] at apart
        exact Pattern.inter_diff_of_apart apart
  refine ⟨hoffers, ?_⟩
  intro c hmode
  have hchosen : (c.extract (mode.modChord id) id).chosenAnagram? mode = c.chosenAnagram? mode := by
    rw [chosenAnagram?, chosenAnagram?, inter_extract_of_apart apart]
  cases offered : c.offers (mode.modChord id) with
  | false =>
      rw [extract_of_not_offers offered, extract_of_not_offers ((hoffers c hmode).trans offered)]
  | true =>
      rw [extract_of_offers ((hoffers c hmode).trans offered)]
      have hextract : reg.mode? (c.extract (mode.modChord id) id).mode = some mode := by
        rw [mode_extract]
        exact hmode
      cases chosen : c.chosenAnagram? mode with
      | none =>
          rw [extractAnagram_of_not_chosen hextract (hchosen.trans chosen),
            extractAnagram_of_not_chosen hmode chosen, extract_of_offers offered]
      | some i =>
          rw [extractAnagram_of_chosen hextract (hchosen.trans chosen),
            extractAnagram_of_chosen hmode chosen, extract_of_offers offered]
          dsimp only
          rw [Pattern.diff_right_comm]

/-- A step that goes past all plain modifiers can come before or after the plain step. -/
theorem extractPlain_comm {step : Chord B → Chord B} (same : ∀ c, (step c).mode = c.mode)
    (past : ∀ m ∈ reg.plainMods, GoesPast reg mode m.id step)
    (hmode : reg.mode? c.mode = some mode) :
    step (c.extractPlain reg) = (step c).extractPlain reg := by
  have hstep : reg.mode? (step c).mode = some mode := by
    rw [same]
    exact hmode
  rw [extractPlain_eq_foldl hmode, extractPlain_eq_foldl hstep]
  clear hstep
  generalize reg.plainMods = mods at past
  induction mods generalizing c with
  | nil => rfl
  | cons m mods ih =>
      have hextract : reg.mode? (c.extract (mode.modChord m.id) m.id).mode = some mode := by
        rw [mode_extract]
        exact hmode
      rw [List.foldl_cons, List.foldl_cons,
        ih hextract fun m' hm' => past m' (List.mem_cons_of_mem m hm'),
        (past m List.mem_cons_self).extract c hmode]

/-- A step that goes past all word modifiers can come before or after the word step. -/
theorem extractWord_comm {step : Chord B → Chord B} (same : ∀ c, (step c).mode = c.mode)
    (past : ∀ id ∈ reg.wordMods, GoesPast reg mode id step) (hmode : reg.mode? c.mode = some mode) :
    step (c.extractWord reg) = (step c).extractWord reg := by
  have hsame : (step c).soleWord? reg mode = c.soleWord? reg mode :=
    congrArg Dictionary.sole? (List.filter_congr fun id hid => (past id hid).offers c hmode)
  have hstep : reg.mode? (step c).mode = some mode := by
    rw [same]
    exact hmode
  rw [extractWord_eq_elim hmode, extractWord_eq_elim hstep, hsame]
  cases sole : c.soleWord? reg mode with
  | none => rfl
  | some id => exact (past id (of_soleWord? sole).1).extract c hmode

/-- The plain step goes past a modifier that shares no switch with the plain ones. -/
theorem goesPast_extractPlain
    (apart : ∀ m ∈ reg.plainMods, (mode.modChord m.id).inter (mode.modChord id) = Pattern.blank) :
    GoesPast reg mode id (extractPlain reg) where
  offers c hmode := by
    refine offers_congr ?_
    rw [extractPlain_eq_foldl hmode]
    refine List.foldlRecOn (motive := fun c' : Chord B =>
      c'.bits.inter (mode.modChord id) = c.bits.inter (mode.modChord id)) _ _ rfl ?_
    intro c' h m hm
    rw [inter_extract_of_apart (apart m hm), h]
  extract c hmode := by
    refine (extractPlain_comm (fun c => mode_extract c _ id) ?_ hmode).symm
    intro m hm
    refine goesPast_extract ?_
    rw [Pattern.inter_comm]
    exact apart m hm

/-! ## Lists in another order -/

/-- Plain modifiers that share no switches can be listed in any order. -/
theorem extractPlain_perm {plain : List PlainMod} (words : List Nat)
    (same : plain.Perm reg.plainMods)
    (apart : ∀ m ∈ plain, ∀ m' ∈ plain, m.id ≠ m'.id →
      (mode.modChord m.id).inter (mode.modChord m'.id) = Pattern.blank)
    (hmode : reg.mode? c.mode = some mode) :
    c.extractPlain { reg with plainMods := plain, wordMods := words } = c.extractPlain reg := by
  have hlisted : ({ reg with plainMods := plain, wordMods := words } : Registry B).mode? c.mode =
      some mode := hmode
  rw [extractPlain_eq_foldl hmode, extractPlain_eq_foldl hlisted]
  refine same.foldl_eq' ?_ c
  intro m hm m' hm' c
  by_cases hid : m.id = m'.id
  · rw [hid]
  · exact extract_comm (apart m hm m' hm' hid) c m.id m'.id

/-- Word modifiers can be listed in any order: it does not matter which of them comes first, as
only one that is alone is taken out. -/
theorem extractWord_perm (plain : List PlainMod) {words : List Nat}
    (same : words.Perm reg.wordMods) (hmode : reg.mode? c.mode = some mode) :
    c.extractWord { reg with plainMods := plain, wordMods := words } = c.extractWord reg := by
  have hlisted : ({ reg with plainMods := plain, wordMods := words } : Registry B).mode? c.mode =
      some mode := hmode
  have hsole : c.soleWord? { reg with plainMods := plain, wordMods := words } mode =
      c.soleWord? reg mode := by
    refine Option.ext fun id => ?_
    rw [soleWord?, soleWord?, Dictionary.sole?_eq_some_iff, Dictionary.sole?_eq_some_iff,
      ← List.perm_singleton, ← List.perm_singleton]
    exact (same.filter _).congr_left [id]
  rw [extractWord_eq_elim hmode, extractWord_eq_elim hlisted, hsole]

end Chord

/-! ## Steps in another order -/

/-- The three steps in which switches are taken out of a chord. -/
inductive ExtractionStep where
  | plain
  | word
  | anagram
deriving DecidableEq, Repr

namespace ExtractionStep

variable {mode : Mode B} {c : Chord B}

def take (reg : Registry B) : ExtractionStep → Chord B → Chord B
  | .plain, c => c.extractPlain reg
  | .word, c => c.extractWord reg
  | .anagram, c => c.extractAnagram reg

@[simp] theorem mode_take (reg : Registry B) (s : ExtractionStep) (c : Chord B) :
    (s.take reg c).mode = c.mode := by
  cases s with
  | plain => exact Chord.mode_extractPlain reg c
  | word => exact Chord.mode_extractWord reg c
  | anagram => exact Chord.mode_extractAnagram reg c

theorem plain_word_comm (apart : ModsApart reg mode) (hmode : reg.mode? c.mode = some mode) :
    (c.extractWord reg).extractPlain reg = (c.extractPlain reg).extractWord reg := by
  refine Chord.extractWord_comm (Chord.mode_extractPlain reg) ?_ hmode
  intro id hid
  exact Chord.goesPast_extractPlain fun m hm => apart.plain_word hm hid

theorem anagram_plain_comm (apart : ModsApart reg mode) (hmode : reg.mode? c.mode = some mode) :
    (c.extractPlain reg).extractAnagram reg = (c.extractAnagram reg).extractPlain reg := by
  refine Chord.extractPlain_comm (Chord.mode_extractAnagram reg) ?_ hmode
  intro m hm
  exact Chord.goesPast_extractAnagram (apart.mask m.id (ModsApart.plain_mem hm))

theorem anagram_word_comm (apart : ModsApart reg mode) (hmode : reg.mode? c.mode = some mode) :
    (c.extractWord reg).extractAnagram reg = (c.extractAnagram reg).extractWord reg := by
  refine Chord.extractWord_comm (Chord.mode_extractAnagram reg) ?_ hmode
  intro id hid
  exact Chord.goesPast_extractAnagram (apart.mask id (ModsApart.word_mem hid))

/-- Any two steps can be exchanged. -/
theorem take_comm (apart : ModsApart reg mode) (hmode : reg.mode? c.mode = some mode)
    (s s' : ExtractionStep) : s.take reg (s'.take reg c) = s'.take reg (s.take reg c) := by
  cases s <;> cases s'
  case plain.word => exact plain_word_comm apart hmode
  case word.plain => exact (plain_word_comm apart hmode).symm
  case plain.anagram => exact (anagram_plain_comm apart hmode).symm
  case anagram.plain => exact anagram_plain_comm apart hmode
  case word.anagram => exact (anagram_word_comm apart hmode).symm
  case anagram.word => exact anagram_word_comm apart hmode
  all_goals rfl

/-- The steps lead to the same chord in any order. -/
theorem foldl_take_perm (apart : ModsApart reg mode) {steps steps' : List ExtractionStep}
    (same : steps.Perm steps') (hmode : reg.mode? c.mode = some mode) :
    steps.foldl (fun c s => s.take reg c) c = steps'.foldl (fun c s => s.take reg c) c := by
  induction same generalizing c with
  | nil => rfl
  | cons s _ ih =>
      refine ih (c := s.take reg c) ?_
      rw [mode_take]
      exact hmode
  | swap s s' rest =>
      exact congrArg (fun c => rest.foldl (fun c s => s.take reg c) c) (take_comm apart hmode s s')
  | trans _ _ ih ih' => exact (ih hmode).trans (ih' hmode)

/-- **The order of extraction does not matter.** In a mode whose modifiers share no switches with
each other, nor with the anagrams, list the plain modifiers and the word modifiers in any order,
and take out the plain modifiers, the word modifier and the anagram in any order: of any chord,
whatever was taken out of it before, all this leaves the same. -/
theorem extracted_in_any_order (apart : ModsApart reg mode) (hmode : reg.mode? c.mode = some mode)
    {plain : List PlainMod} (samePlain : plain.Perm reg.plainMods)
    {words : List Nat} (sameWords : words.Perm reg.wordMods)
    {steps : List ExtractionStep} (sameSteps : steps.Perm [.plain, .word, .anagram]) :
    steps.foldl (fun c s => s.take { reg with plainMods := plain, wordMods := words } c) c =
      ((c.extractPlain reg).extractWord reg).extractAnagram reg := by
  have hids : ({ reg with plainMods := plain, wordMods := words } : Registry B).modIds.Perm
      reg.modIds := (samePlain.map PlainMod.id).append sameWords
  have hmods : ∀ m ∈ plain, ∀ m' ∈ plain, m.id ≠ m'.id →
      (mode.modChord m.id).inter (mode.modChord m'.id) = Pattern.blank := by
    intro m hm m' hm' hne
    exact apart.mods m.id (ModsApart.plain_mem (samePlain.subset hm)) m'.id
      (ModsApart.plain_mem (samePlain.subset hm')) hne
  have hplain : reg.mode? (c.extractPlain reg).mode = some mode := by
    rw [Chord.mode_extractPlain]
    exact hmode
  rw [foldl_take_perm (apart.perm hids) sameSteps hmode]
  show (((c.extractPlain { reg with plainMods := plain, wordMods := words }).extractWord
    { reg with plainMods := plain, wordMods := words }).extractAnagram reg) = _
  rw [Chord.extractPlain_perm words samePlain hmods hmode,
    Chord.extractWord_perm plain sameWords hplain]

/-- Two plain and two word modifiers, one of these without switches, and two anagrams. -/
def apartMode : Mode 1 :=
  ⟨⟨[], [], [], []⟩, [0x03, 0x04, 0x08, 0x00], 0x60, [0x20, 0x40], false⟩

def apartMods : Registry 1 where
  dictionaries := []
  modes := [apartMode]
  plainMods := [⟨0, Modifier.leftShift⟩, ⟨1, Modifier.leftCtrl⟩]
  wordMods := [2, 3]
  nospace := 2
  capital := 3
  double := none
  shorten := none
  modCount := 4

/-- The same modifiers, listed the other way around. -/
def turnedMods : Registry 1 :=
  { apartMods with
    plainMods := apartMods.plainMods.reverse
    wordMods := apartMods.wordMods.reverse }

/-- Both plain modifiers, a word modifier and the second anagram are taken out, and two switches
are left, also if all is done the other way around. -/
theorem extracted_backwards :
    apartMods.validate = .ok () ∧ ModsApart apartMods apartMode ∧
      [ExtractionStep.anagram, .word, .plain].foldl (fun c s => s.take turnedMods c)
          (Chord.ofBits 0 0xdf) =
        (((Chord.ofBits 0 0xdf).extractPlain apartMods).extractWord apartMods).extractAnagram
          apartMods ∧
      ([ExtractionStep.anagram, .word, .plain].foldl (fun c s => s.take turnedMods c)
          (Chord.ofBits 0 0xdf)).bits = 0x90 := by
  have apart : ModsApart apartMods apartMode := ⟨by decide, by decide, by decide⟩
  have backwards : [ExtractionStep.anagram, .word, .plain].Perm [.plain, .word, .anagram] := by
    decide
  have hsame := extracted_in_any_order (c := Chord.ofBits 0 0xdf) apart rfl
    (List.reverse_perm apartMods.plainMods) (List.reverse_perm apartMods.wordMods) backwards
  exact ⟨rfl, apart, hsame, by decide⟩

end ExtractionStep

end Chordboard
