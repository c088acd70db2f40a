import Chordboard.Registry

/-!
# Defects of a registry

A registry is checked once, before an engine starts on it. `validate` names
the first defect that it finds, `Registry.Valid` is the absence of defects,
and `validate_eq_ok_iff` ties the two together.
-/

namespace Chordboard

/-! ## Defects -/

/-- The first defect of a registry, with the number of the mode or dictionary
that has it, cut to a byte. -/
inductive ConfigError where
  | noModes
  | tooManyModifiers
  | tooManyAnagrams (mode : UInt8)
  | missingModChord (mode : UInt8)
  | badDictionaryId (mode : UInt8)
  | classMismatch (dictionary : UInt8)
  | badModId
  | notWordMod
deriving DecidableEq, Repr

namespace Registry

variable {B : Nat}

/-- The modifiers that must be word modifiers. -/
def wordRoles (reg : Registry B) : List Nat :=
  reg.nospace :: reg.capital :: (reg.double.toList ++ reg.shorten.toList)

def modeDefect? (reg : Registry B) (m : Mode B) (i : Nat) : Option ConfigError :=
  if maxAnagrams < m.anagramChords.length then some (.tooManyAnagrams (UInt8.ofNat i))
  else if m.modChords.length < reg.modCount then some (.missingModChord (UInt8.ofNat i))
  else if m.order.all.any fun id => reg.dictionaries.length ≤ id then
    some (.badDictionaryId (UInt8.ofNat i))
  else none

def dictionaryDefect? (d : Dictionary) (i : Nat) : Option ConfigError :=
  if d.records.length ≠ d.sequences.length then some (.classMismatch (UInt8.ofNat i)) else none

/-- The first defect of the modifiers and their roles. -/
def modDefect? (reg : Registry B) : Option ConfigError :=
  if (reg.plainMods.map PlainMod.id ++ reg.wordMods).any fun id => reg.modCount ≤ id then
    some .badModId
  else if reg.wordRoles.any fun id => !reg.wordMods.contains id then some .notWordMod
  else none

/-- The first defect: of the registry as a whole, of the dictionaries, of the
modes, of the modifiers. -/
def defect? (reg : Registry B) : Option ConfigError :=
  if reg.modes.isEmpty then some .noModes
  else if maxModifiers < reg.modCount then some .tooManyModifiers
  else
    (reg.dictionaries.zipIdx.findSome? fun (d, i) => dictionaryDefect? d i).or <|
    (reg.modes.zipIdx.findSome? fun (m, i) => reg.modeDefect? m i).or
    reg.modDefect?

/-- Refuses a registry that has a defect. -/
def validate (reg : Registry B) : Except ConfigError Unit :=
  match reg.defect? with
  | some e => .error e
  | none => .ok ()

structure Valid (reg : Registry B) : Prop where
  modes_ne_nil : reg.modes ≠ []
  modCount_le : reg.modCount ≤ maxModifiers
  classes : ∀ d ∈ reg.dictionaries, d.records.length = d.sequences.length
  anagrams_le : ∀ m ∈ reg.modes, m.anagramChords.length ≤ maxAnagrams
  modCount_le_modChords : ∀ m ∈ reg.modes, reg.modCount ≤ m.modChords.length
  id_lt : ∀ m ∈ reg.modes, ∀ id ∈ m.order.all, id < reg.dictionaries.length
  plainMod_lt : ∀ m ∈ reg.plainMods, m.id < reg.modCount
  wordMod_lt : ∀ id ∈ reg.wordMods, id < reg.modCount
  wordRole_mem : ∀ id ∈ reg.wordRoles, id ∈ reg.wordMods

theorem dictionaryDefect?_eq_none {d : Dictionary} {i : Nat} :
    dictionaryDefect? d i = none ↔ d.records.length = d.sequences.length := by
  simp [dictionaryDefect?]

theorem modeDefect?_eq_none {reg : Registry B} {m : Mode B} {i : Nat} :
    reg.modeDefect? m i = none ↔
      m.anagramChords.length ≤ maxAnagrams ∧ reg.modCount ≤ m.modChords.length ∧
        ∀ id ∈ m.order.all, id < reg.dictionaries.length := by
  unfold modeDefect?
  split
  · simp; omega
  · split
    · simp; omega
    · split
      · rename_i h
        simp at h ⊢
        grind
      · rename_i h
        simp at h ⊢
        grind

theorem modDefect?_eq_none {reg : Registry B} :
    reg.modDefect? = none ↔
      ((∀ m ∈ reg.plainMods, m.id < reg.modCount) ∧ ∀ id ∈ reg.wordMods, id < reg.modCount) ∧
        ∀ id ∈ reg.wordRoles, id ∈ reg.wordMods := by
  unfold modDefect?
  split
  · rename_i h
    simp at h ⊢
    grind
  · split
    · rename_i h
      simp at h ⊢
      grind
    · rename_i h h'
      simp at h h' ⊢
      grind

/-- A statement about the numbered members of a list that does not depend on the
number is one about the members. -/
theorem forall_mem_zipIdx {α : Type} {l : List α} {p : α → Prop} :
    (∀ x ∈ l.zipIdx, p x.1) ↔ ∀ a ∈ l, p a := by
  constructor
  · intro h a ha
    obtain ⟨i, hi, rfl⟩ := List.getElem_of_mem ha
    exact h (l[i], i) (List.mem_zipIdx_iff_getElem?.2 (List.getElem?_eq_getElem hi))
  · rintro h ⟨a, i⟩ hx
    exact h a (List.mem_of_getElem? (List.mem_zipIdx_iff_getElem?.1 hx))

/-- The check accepts exactly the registries without defects. -/
theorem validate_eq_ok_iff {reg : Registry B} : reg.validate = .ok () ↔ reg.Valid := by
  have step : reg.validate = .ok () ↔ reg.defect? = none := by
    unfold validate
    split <;> simp_all
  rw [step, defect?]
  by_cases hm : reg.modes.isEmpty = true
  · rw [if_pos hm]
    exact ⟨nofun, fun v => absurd (List.isEmpty_iff.1 hm) v.modes_ne_nil⟩
  · rw [if_neg hm]
    by_cases hc : maxModifiers < reg.modCount
    · rw [if_pos hc]
      exact ⟨nofun, fun v => absurd v.modCount_le (Nat.not_le.2 hc)⟩
    · rw [if_neg hc, Option.or_eq_none_iff, Option.or_eq_none_iff, modDefect?_eq_none,
        List.findSome?_eq_none_iff, List.findSome?_eq_none_iff]
      simp only [dictionaryDefect?_eq_none, modeDefect?_eq_none]
      rw [forall_mem_zipIdx (p := fun d : Dictionary => d.records.length = d.sequences.length),
        forall_mem_zipIdx (p := fun m : Mode B => m.anagramChords.length ≤ maxAnagrams ∧
          reg.modCount ≤ m.modChords.length ∧
            ∀ id ∈ m.order.all, id < reg.dictionaries.length)]
      constructor
      · rintro ⟨hd, hmode, ⟨hplain, hword⟩, hrole⟩
        exact ⟨fun h => hm (List.isEmpty_iff.2 h), Nat.le_of_not_lt hc, hd,
          fun m h => (hmode m h).1, fun m h => (hmode m h).2.1, fun m h => (hmode m h).2.2,
          hplain, hword, hrole⟩
      · rintro ⟨_, _, hd, ha, hmod, hid, hplain, hword, hrole⟩
        exact ⟨hd, fun m h => ⟨ha m h, hmod m h, hid m h⟩, ⟨hplain, hword⟩, hrole⟩

theorem Valid.exists_mode {reg : Registry B} (v : reg.Valid) (number : Nat) :
    ∃ mode, reg.mode? number = some mode := by
  have hlt : reg.modeIndex number < reg.modes.length := by
    unfold modeIndex
    split
    · rename_i h
      exact of_decide_eq_true h
    · exact List.length_pos_iff.2 v.modes_ne_nil
  exact ⟨_, List.getElem?_eq_getElem hlt⟩

theorem Valid.lt_maxModifiers {reg : Registry B} (v : reg.Valid) {id : Nat}
    (h : id < reg.modCount) : id < maxModifiers :=
  Nat.lt_of_lt_of_le h v.modCount_le

theorem Valid.anagramCount_le {reg : Registry B} (v : reg.Valid) (mode : Nat) :
    reg.anagramCount mode ≤ maxAnagrams := by
  unfold anagramCount
  split
  · rename_i m hm
    have hle := v.anagrams_le m (List.mem_of_getElem? hm)
    unfold Mode.anagramCount
    split
    · decide
    · exact Nat.max_le.2 ⟨hle, by decide⟩
  · decide

/-- Without defects the cut changes nothing: a chord goes through all anagrams of
its mode. -/
theorem Valid.anagramCycle_eq {reg : Registry B} (v : reg.Valid) (mode : Nat) :
    reg.anagramCycle mode = reg.anagramCount mode :=
  anagramCycle_of_lt (Nat.lt_of_le_of_lt (v.anagramCount_le mode) (by decide))

end Registry

end Chordboard
