import Chordboard.Proofs.Chord.Anagrams
import Chordboard.Proofs.Strict.Tables

/-!
# Chords without a fallback

Taking modifiers out of a chord, moving it on, and spelling its word, all with strict accesses.
On a registry without defects, and for a chord whose mode exists, each of them comes to the same
as the total function.
-/

namespace Chordboard

variable {B : Nat} {reg : Registry B} {c : Chord B}

namespace Registry

/-! ## The numbers of modifiers -/

theorem Valid.lt_modChords (v : reg.Valid) {id : Nat} (h : id < reg.modCount) {m : Mode B}
    (hm : m ∈ reg.modes) : id < m.modChords.length :=
  Nat.lt_of_lt_of_le h (v.modCount_le_modChords m hm)

theorem Valid.wordRole_lt (v : reg.Valid) {id : Nat} (h : id ∈ reg.wordRoles) :
    id < maxModifiers :=
  v.lt_maxModifiers (v.wordMod_lt id (v.wordRole_mem id h))

theorem nospace_mem_wordRoles : reg.nospace ∈ reg.wordRoles := List.mem_cons_self

theorem capital_mem_wordRoles : reg.capital ∈ reg.wordRoles :=
  List.mem_cons_of_mem _ List.mem_cons_self

theorem double_mem_wordRoles {id : Nat} (h : reg.double = some id) : id ∈ reg.wordRoles := by
  simp [wordRoles, h]

theorem shorten_mem_wordRoles {id : Nat} (h : reg.shorten = some id) : id ∈ reg.wordRoles := by
  simp [wordRoles, h]

end Registry

namespace Strict

/-! ## Taking modifiers out -/

def extract (c : Chord B) (p : Pattern B) (id : Nat) : Checked (Chord B) := do
  if c.offers p then
    let mods ← set c.mods id
    return { c with bits := c.bits.diff p, mods }
  else return c

def extractPlain (reg : Registry B) (c : Chord B) : Checked (Chord B) := do
  let m ← mode reg c.mode
  reg.plainMods.foldlM (fun c plain => do extract c (← modChord m plain.id) plain.id) c

/-- Takes out the word modifier that is the only one there. The chords of all of them are asked
for, also once it is clear that there is more than one. -/
def extractWord (reg : Registry B) (c : Chord B) : Checked (Chord B) := do
  let m ← mode reg c.mode
  match ← reg.wordMods.filterM fun id => do return c.offers (← modChord m id) with
  | [id] => extract c (← modChord m id) id
  | _ => return c

def extractAnagram (reg : Registry B) (c : Chord B) : Checked (Chord B) := do
  let m ← mode reg c.mode
  match c.chosenAnagram? m with
  | none => return c
  | some i =>
      let bit ← anagramBit i
      return { c with
        bits := c.bits.diff m.anagramMask
        anagram := i
        anagramsTaken := c.anagramsTaken ||| bit }

/-- The modifier byte of the plain modifiers that were taken out. -/
def modByte (reg : Registry B) (c : Chord B) : Checked UInt8 :=
  reg.plainMods.foldlM
    (fun acc m => do if ← has c.mods m.id then return acc ||| m.hid else return acc) 0

theorem extract_eq (c : Chord B) (p : Pattern B) {id : Nat} (h : id < maxModifiers) :
    extract c p id = pure (c.extract p id) := by
  unfold extract Chord.extract
  split
  · rw [set_eq c.mods h, pure_bind]
  · rfl

theorem extractPlain_eq (v : reg.Valid) (h : reg.isValidMode c.mode = true) :
    extractPlain reg c = pure (c.extractPlain reg) := by
  obtain ⟨m, hmem, htotal, hmode⟩ := mode_eq h
  rw [extractPlain, Chord.extractPlain, htotal, hmode, pure_bind]
  apply foldlM_eq
  intro c plain hplain
  have hlt := v.plainMod_lt plain hplain
  rw [modChord_eq (v.lt_modChords hlt hmem), pure_bind, extract_eq c _ (v.lt_maxModifiers hlt)]

theorem extractWord_eq (v : reg.Valid) (h : reg.isValidMode c.mode = true) :
    extractWord reg c = pure (c.extractWord reg) := by
  obtain ⟨m, hmem, htotal, hmode⟩ := mode_eq h
  have hoffered : (reg.wordMods.filterM fun id => do return c.offers (← modChord m id)) =
      pure (reg.wordMods.filter fun id => c.offers (m.modChord id)) := by
    apply filterM_eq
    intro id hid
    rw [modChord_eq (v.lt_modChords (v.wordMod_lt id hid) hmem), pure_bind]
  rw [extractWord, Chord.extractWord, htotal, hmode, pure_bind, hoffered, pure_bind]
  dsimp only
  cases hids : reg.wordMods.filter fun id => c.offers (m.modChord id) with
  | nil => rfl
  | cons id rest =>
      cases rest with
      | cons _ _ => rfl
      | nil =>
          have hid : id ∈ reg.wordMods.filter fun id => c.offers (m.modChord id) := by
            rw [hids]
            exact List.mem_singleton_self id
          have hlt := v.wordMod_lt id (List.mem_filter.1 hid).1
          dsimp only
          rw [modChord_eq (v.lt_modChords hlt hmem), pure_bind,
            extract_eq c _ (v.lt_maxModifiers hlt)]

/-- The switches of a chord choose one of the anagrams that a mode can have. -/
theorem extractAnagram_eq (v : reg.Valid) (h : reg.isValidMode c.mode = true) :
    extractAnagram reg c = pure (c.extractAnagram reg) := by
  obtain ⟨m, -, htotal, hmode⟩ := mode_eq h
  rw [extractAnagram, Chord.extractAnagram, htotal, hmode, pure_bind]
  dsimp only
  cases hchosen : c.chosenAnagram? m with
  | none => rfl
  | some i =>
      have hcount := v.anagramCount_le c.mode
      rw [Registry.anagramCount, htotal] at hcount
      have hlt : i < maxAnagrams := Nat.lt_of_lt_of_le (Chord.chosenAnagram?_lt hchosen) hcount
      dsimp only
      rw [anagramBit_eq hlt, pure_bind]

theorem modByte_eq (v : reg.Valid) (c : Chord B) : modByte reg c = pure (c.modByte reg) := by
  rw [modByte, Chord.modByte, List.foldl_filter]
  apply foldlM_eq
  intro acc m hm
  rw [has_eq c.mods (v.lt_maxModifiers (v.plainMod_lt m hm)), pure_bind]
  split <;> rfl

/-! ## Moving on -/

/-- The number of anagrams of a mode. -/
def anagramCount (reg : Registry B) (number : Nat) : Checked Nat := do
  return (← mode reg number).anagramCount

def cycleAnagram (reg : Registry B) (c : Chord B) : Checked (Chord B) := do
  let next ← wrap (c.anagram + 1) ((← anagramCount reg c.mode) % 256)
  let bit ← anagramBit next
  return { c with anagram := next, anagramsTaken := bit }

def cycleNospace (reg : Registry B) (c : Chord B) : Checked (Chord B) := do
  let mods ← toggle c.mods reg.nospace
  return { c with mods }

def cycleCapital (reg : Registry B) (c : Chord B) (keys : List Key) : Checked (Chord B) := do
  let c := c.settleCapital keys
  let mods ← toggle c.mods reg.capital
  return { c with mods }

theorem anagramCount_eq {number : Nat} (h : reg.isValidMode number = true) :
    anagramCount reg number = pure (reg.anagramCount number) := by
  obtain ⟨m, -, htotal, hmode⟩ := mode_eq h
  rw [anagramCount, Registry.anagramCount, htotal, hmode, pure_bind]

theorem cycleAnagram_eq (v : reg.Valid) (h : reg.isValidMode c.mode = true) :
    cycleAnagram reg c = pure (c.cycleAnagram reg) := by
  have hcycle : reg.anagramCycle c.mode ≠ 0 := by
    rw [v.anagramCycle_eq]
    exact Nat.ne_of_gt (reg.anagramCount_pos c.mode)
  have hnext : (c.anagram + 1) % reg.anagramCycle c.mode < maxAnagrams := by
    refine Nat.lt_of_lt_of_le (Nat.mod_lt _ (Nat.pos_of_ne_zero hcycle)) ?_
    rw [v.anagramCycle_eq]
    exact v.anagramCount_le c.mode
  rw [cycleAnagram, anagramCount_eq h, pure_bind, ← Registry.anagramCycle, wrap_eq _ hcycle,
    pure_bind, anagramBit_eq hnext, pure_bind]
  rfl

theorem cycleNospace_eq (v : reg.Valid) (c : Chord B) :
    cycleNospace reg c = pure (c.cycleNospace reg) := by
  rw [cycleNospace, toggle_eq c.mods (v.wordRole_lt Registry.nospace_mem_wordRoles), pure_bind]
  rfl

theorem cycleCapital_eq (v : reg.Valid) (c : Chord B) (keys : List Key) :
    cycleCapital reg c keys = pure (c.cycleCapital reg keys) := by
  rw [cycleCapital, toggle_eq _ (v.wordRole_lt Registry.capital_mem_wordRoles), pure_bind]
  rfl

/-! ## Spelling -/

/-- The chord has a modifier, if there is one for the role. -/
def hasRole (c : Chord B) (role : Option Nat) : Checked Bool :=
  match role with
  | some id => has c.mods id
  | none => return false

def editLength (reg : Registry B) (c : Chord B) (keys : List Key) : Checked (List Key) := do
  let keys := if ← hasRole c reg.shorten then keys.dropLast else keys
  return if ← hasRole c reg.double then Chord.repeatLast keys else keys

def editCapital (reg : Registry B) (c : Chord B) (keys : List Key) : Checked (List Key) := do
  return if ← has c.mods reg.capital then (c.ruleFor keys).apply keys else keys

/-- The keys to send for a word that the dictionary spells `keys`. -/
def spell (reg : Registry B) (c : Chord B) (keys : List Key) : Checked (List Key) := do
  let keys ← editCapital reg c (← editLength reg c keys)
  return if ← has c.mods reg.nospace then keys else addKey keys Chord.spaceKey

theorem hasRole_eq (c : Chord B) {role : Option Nat}
    (h : ∀ id, role = some id → id < maxModifiers) : hasRole c role = pure (c.hasRole role) := by
  cases role with
  | none => rfl
  | some id => exact has_eq c.mods (h id rfl)

theorem editLength_eq (v : reg.Valid) (c : Chord B) (keys : List Key) :
    editLength reg c keys = pure (c.editLength reg keys) := by
  have hshorten : hasRole c reg.shorten = pure (c.hasShorten reg) :=
    hasRole_eq c fun id h => v.wordRole_lt (Registry.shorten_mem_wordRoles h)
  have hdouble : hasRole c reg.double = pure (c.hasDouble reg) :=
    hasRole_eq c fun id h => v.wordRole_lt (Registry.double_mem_wordRoles h)
  rw [editLength, hshorten, pure_bind]
  dsimp only
  rw [hdouble, pure_bind]
  rfl

theorem editCapital_eq (v : reg.Valid) (c : Chord B) (keys : List Key) :
    editCapital reg c keys = pure (c.editCapital reg keys) := by
  rw [editCapital, has_eq c.mods (v.wordRole_lt Registry.capital_mem_wordRoles), pure_bind]
  rfl

theorem spell_eq (v : reg.Valid) (c : Chord B) (keys : List Key) :
    spell reg c keys = pure (c.spell reg keys) := by
  rw [spell, editLength_eq v, pure_bind, editCapital_eq v, pure_bind,
    has_eq c.mods (v.wordRole_lt Registry.nospace_mem_wordRoles), pure_bind]
  rfl

end Strict

end Chordboard
