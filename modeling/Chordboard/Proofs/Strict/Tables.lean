import Chordboard.Lookup
import Chordboard.Proofs.Dictionary.Lookups
import Chordboard.Registry.Validation

/-!
# Accesses without a fallback

The access functions of the registry, of the modifier flags and of the patterns are total: where
there is nothing to be had they fall back to something harmless. The strict ones stop there with
a `Defect`. A computation that is carried out with strict accesses and comes to an end has
therefore never fallen back.

This file has the accesses, and the lookup of a chord. On a registry without defects they come
to the same as the total ones.
-/

namespace Chordboard

variable {B : Nat} {reg : Registry B}

/-- An access where there is nothing to be had. -/
inductive Defect where
  | noMode (mode : Nat)
  | noDictionary (id : Nat)
  /-- A length class with records and without a table. -/
  | noTable (length : Nat)
  | noModChord (id : Nat)
  /-- The number is too large for the modifier flags. -/
  | noModifier (id : Nat)
  /-- The pattern has no room for the switch. -/
  | noSwitch (i : Nat)
  /-- The number is too large for an anagram. -/
  | noAnagram (i : Nat)
  /-- Anagram numbers are to wrap around at zero. -/
  | emptyCycle
deriving DecidableEq, Repr

/-- A result, or the defect that stopped the computation. -/
abbrev Checked (α : Type) : Type := Except Defect α

namespace Strict

def require (p : Prop) [Decidable p] (defect : Defect) : Checked Unit :=
  if p then pure () else throw defect

theorem require_eq {p : Prop} [Decidable p] (h : p) (defect : Defect) :
    require p defect = pure () := if_pos h

/-! ## Lists -/

section lists

variable {α β : Type}

theorem foldlM_eq {f : β → α → Checked β} {g : β → α → β} {l : List α}
    (h : ∀ b, ∀ a ∈ l, f b a = pure (g b a)) (b : β) : l.foldlM f b = pure (l.foldl g b) := by
  induction l generalizing b with
  | nil => rfl
  | cons a l ih =>
      rw [List.foldlM_cons, h b a List.mem_cons_self, pure_bind]
      exact ih (fun b a ha => h b a (List.mem_cons_of_mem _ ha)) (g b a)

theorem mapM_eq {f : α → Checked β} {g : α → β} {l : List α}
    (h : ∀ a ∈ l, f a = pure (g a)) : l.mapM f = pure (l.map g) := by
  induction l with
  | nil => rfl
  | cons a l ih =>
      rw [List.mapM_cons, h a List.mem_cons_self, pure_bind,
        ih fun a ha => h a (List.mem_cons_of_mem _ ha), pure_bind]
      rfl

theorem filterAuxM_eq {f : α → Checked Bool} {g : α → Bool} {l : List α}
    (h : ∀ a ∈ l, f a = pure (g a)) (acc : List α) :
    l.filterAuxM f acc = pure ((l.filter g).reverse ++ acc) := by
  induction l generalizing acc with
  | nil => rfl
  | cons a l ih =>
      have ih := ih fun a ha => h a (List.mem_cons_of_mem _ ha)
      rw [List.filterAuxM, h a List.mem_cons_self, pure_bind, ih, List.filter_cons]
      cases g a with
      | true => simp
      | false => rfl

theorem filterM_eq {f : α → Checked Bool} {g : α → Bool} {l : List α}
    (h : ∀ a ∈ l, f a = pure (g a)) : l.filterM f = pure (l.filter g) := by
  rw [List.filterM, filterAuxM_eq h, pure_bind, List.append_nil, List.reverse_reverse]

theorem findSomeM?_eq {f : α → Checked (Option β)} {g : α → Option β} {l : List α}
    (h : ∀ a ∈ l, f a = pure (g a)) : l.findSomeM? f = pure (l.findSome? g) := by
  induction l with
  | nil => rfl
  | cons a l ih =>
      rw [List.findSomeM?_cons, h a List.mem_cons_self, pure_bind, List.findSome?_cons]
      cases g a with
      | some b => rfl
      | none => exact ih fun a ha => h a (List.mem_cons_of_mem _ ha)

end lists

/-! ## The registry -/

/-- The mode of that number. -/
def mode (reg : Registry B) (number : Nat) : Checked (Mode B) :=
  match reg.modes[number]? with
  | some m => pure m
  | none => throw (.noMode number)

def dictionary (reg : Registry B) (id : Nat) : Checked Dictionary :=
  match reg.dictionaries[id]? with
  | some d => pure d
  | none => throw (.noDictionary id)

/-- The sequence table of a length class. -/
def table (d : Dictionary) (length : Nat) : Checked (List UInt8) :=
  match d.sequences[length]? with
  | some t => pure t
  | none => throw (.noTable length)

/-- The chord of a modifier. -/
def modChord (m : Mode B) (id : Nat) : Checked (Pattern B) :=
  match m.modChords[id]? with
  | some p => pure p
  | none => throw (.noModChord id)

theorem mode_eq {number : Nat} (h : reg.isValidMode number = true) :
    ∃ m ∈ reg.modes, reg.mode? number = some m ∧ mode reg number = pure m := by
  have hlt : number < reg.modes.length := of_decide_eq_true h
  have hget : reg.modes[number]? = some reg.modes[number] := List.getElem?_eq_getElem hlt
  refine ⟨reg.modes[number], List.getElem_mem hlt, ?_, ?_⟩
  · rw [Registry.mode?_of_isValidMode h, hget]
  · rw [mode, hget]

theorem dictionary_eq {id : Nat} (h : id < reg.dictionaries.length) :
    ∃ d ∈ reg.dictionaries, reg.dictionary? id = some d ∧ dictionary reg id = pure d := by
  have hget : reg.dictionaries[id]? = some reg.dictionaries[id] := List.getElem?_eq_getElem h
  refine ⟨reg.dictionaries[id], List.getElem_mem h, hget, ?_⟩
  rw [dictionary, hget]

theorem modChord_eq {m : Mode B} {id : Nat} (h : id < m.modChords.length) :
    modChord m id = pure (m.modChord id) := by
  rw [modChord, Mode.modChord, List.getD_eq_getElem?_getD, List.getElem?_eq_getElem h]
  rfl

/-! ## Flags, patterns and anagrams -/

def has (f : ModFlags) (id : Nat) : Checked Bool := do
  require (id < maxModifiers) (.noModifier id)
  return f.has id

def set (f : ModFlags) (id : Nat) : Checked ModFlags := do
  require (id < maxModifiers) (.noModifier id)
  return f.set id

def toggle (f : ModFlags) (id : Nat) : Checked ModFlags := do
  require (id < maxModifiers) (.noModifier id)
  return f.toggle id

/-- Adds a switch for which there is room. -/
def insert (p : Pattern B) (i : Nat) : Checked (Pattern B) := do
  require (i < 8 * B) (.noSwitch i)
  return p.insert i

/-- The set of one anagram number. -/
def anagramBit (i : Nat) : Checked (BitVec maxAnagrams) := do
  require (i < maxAnagrams) (.noAnagram i)
  return BitVec.twoPow maxAnagrams i

/-- Wraps a number around at the end of a cycle. -/
def wrap (number cycle : Nat) : Checked Nat := do
  require (cycle ≠ 0) .emptyCycle
  return number % cycle

section

variable {id i : Nat}

theorem has_eq (f : ModFlags) (h : id < maxModifiers) : has f id = pure (f.has id) := by
  rw [has, require_eq h, pure_bind]

theorem set_eq (f : ModFlags) (h : id < maxModifiers) : set f id = pure (f.set id) := by
  rw [set, require_eq h, pure_bind]

theorem toggle_eq (f : ModFlags) (h : id < maxModifiers) : toggle f id = pure (f.toggle id) := by
  rw [toggle, require_eq h, pure_bind]

theorem insert_eq (p : Pattern B) (h : i < 8 * B) : insert p i = pure (p.insert i) := by
  rw [insert, require_eq h, pure_bind]

theorem anagramBit_eq (h : i < maxAnagrams) :
    anagramBit i = pure (BitVec.twoPow maxAnagrams i) := by
  rw [anagramBit, require_eq h, pure_bind]

theorem wrap_eq (number : Nat) {cycle : Nat} (h : cycle ≠ 0) :
    wrap number cycle = pure (number % cycle) := by
  rw [wrap, require_eq h, pure_bind]

end

/-! ## Lookup -/

/-- The keys of a chord and an anagram number in a dictionary. -/
def find? (d : Dictionary) (chord : Pattern B) (anagram : Nat) : Checked (Option (List Key)) :=
  match d.match? chord anagram with
  | none => return none
  | some (length, r) => do
      let table ← table d length
      match d.encoding.readSequence table length r.seq with
      | [] => return none
      | keys => return some keys

/-- The keys of a chord as an entry of some kind. -/
def lookup (reg : Registry B) (kind : EntryKind) (c : Chord B) : Checked (Option (List Key)) := do
  let m ← mode reg c.mode
  (m.order.ids kind).findSomeM? fun id => do find? (← dictionary reg id) c.bits c.anagram

/-- A record stands in a length class of its dictionary. -/
theorem length_lt_of_match? {d : Dictionary} {chord : Pattern B} {anagram length : Nat}
    {r : Record B} (h : d.match? chord anagram = some (length, r)) :
    length < d.records.length := by
  obtain ⟨stream, hstream, -⟩ := (Dictionary.matches_of_match? h).stands
  exact (List.getElem?_eq_some_iff.1 hstream).1

theorem find?_eq {d : Dictionary} (classes : d.records.length = d.sequences.length)
    (chord : Pattern B) (anagram : Nat) :
    find? d chord anagram = pure (d.find? chord anagram) := by
  rw [find?, Dictionary.find?]
  cases hmatch : d.match? chord anagram with
  | none => rfl
  | some found =>
      obtain ⟨length, r⟩ := found
      have hlt : length < d.sequences.length := classes ▸ length_lt_of_match? hmatch
      have htable : table d length = pure d.sequences[length] := by
        rw [table, List.getElem?_eq_getElem hlt]
      dsimp only
      rw [htable, pure_bind, Dictionary.keysAt, List.getElem?_eq_getElem hlt]
      dsimp only
      cases d.encoding.readSequence d.sequences[length] length r.seq with
      | nil => rfl
      | cons key keys => rfl

theorem lookup_eq (v : reg.Valid) (kind : EntryKind) {c : Chord B}
    (h : reg.isValidMode c.mode = true) : lookup reg kind c = pure (reg.lookup kind c) := by
  obtain ⟨m, hmem, htotal, hmode⟩ := mode_eq h
  rw [lookup, Registry.lookup, htotal, hmode, pure_bind]
  apply findSomeM?_eq
  intro id hid
  obtain ⟨d, hd, htotal, hdictionary⟩ := dictionary_eq
    (v.id_lt m hmem id (SearchOrder.mem_all.2 ⟨kind, hid⟩))
  rw [htotal, hdictionary, pure_bind]
  exact find?_eq (v.classes d hd) c.bits c.anagram

end Strict

end Chordboard
