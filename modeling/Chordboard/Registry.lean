import Chordboard.Dictionary
import Chordboard.ModFlags

/-!
# The registry

The registry holds every table that the engine reads: the dictionaries, the
modes with their modifier and anagram chords, and the roles of the
modifiers. It does not change while the engine runs.

The access functions are total: a mode that does not exist falls back to the
first mode, and a modifier without a chord has the blank one. A registry
without defects never needs that; it is checked for them before an engine
starts.
-/

namespace Chordboard

/-- The number of anagrams that can share a chord: a record keeps the number in
four bits. -/
def maxAnagrams : Nat := 16

/-! ## Modes -/

/-- What a dictionary entry is looked up for. -/
inductive EntryKind where
  /-- Keys that are sent as they are. -/
  | plain
  /-- Keys that are sent as they are, looked for after the plain ones. -/
  | expansion
  /-- An order to the engine itself. -/
  | command
  /-- A word, which can be capitalized, spaced and replaced. -/
  | word
deriving DecidableEq, Repr

/-- The dictionaries to search for each kind of entry, by their place in the
registry, the most important first. -/
structure SearchOrder where
  plain : List Nat
  expansion : List Nat
  command : List Nat
  word : List Nat
deriving DecidableEq, Repr

namespace SearchOrder

def ids (o : SearchOrder) : EntryKind → List Nat
  | .plain => o.plain
  | .expansion => o.expansion
  | .command => o.command
  | .word => o.word

def all (o : SearchOrder) : List Nat :=
  o.plain ++ o.expansion ++ o.command ++ o.word

theorem mem_all {o : SearchOrder} {id : Nat} : id ∈ o.all ↔ ∃ kind, id ∈ o.ids kind := by
  simp only [all, List.mem_append]
  constructor
  · rintro (((h | h) | h) | h)
    · exact ⟨.plain, h⟩
    · exact ⟨.expansion, h⟩
    · exact ⟨.command, h⟩
    · exact ⟨.word, h⟩
  · rintro ⟨kind, h⟩
    cases kind <;> simp_all [ids]

end SearchOrder

/-- A mode of the keyboard: where chords are looked up, and which switches
modify them. -/
structure Mode (B : Nat) where
  order : SearchOrder
  modChords : List (Pattern B)
  /-- The switches that choose an anagram. -/
  anagramMask : Pattern B
  /-- The switches of the mask that choose each anagram number. -/
  anagramChords : List (Pattern B)
  /-- Every switch is reported on its own, without chords. -/
  gaming : Bool

namespace Mode

variable {B : Nat}

/-- The number of anagrams to cycle through; at least one. -/
def anagramCount (m : Mode B) : Nat :=
  if m.anagramMask.isBlank then 1 else max m.anagramChords.length 1

/-- The chord of a modifier, blank if it has none. -/
def modChord (m : Mode B) (id : Nat) : Pattern B :=
  m.modChords.getD id Pattern.blank

theorem anagramCount_pos (m : Mode B) : 0 < m.anagramCount := by
  unfold anagramCount
  split <;> omega

end Mode

/-! ## The registry -/

/-- A modifier that holds modifier keys down. -/
structure PlainMod where
  id : Nat
  /-- Its bits in the modifier byte. -/
  hid : UInt8
deriving DecidableEq, Repr

/-- Every table that the engine reads. -/
structure Registry (B : Nat) where
  dictionaries : List Dictionary
  modes : List (Mode B)
  plainMods : List PlainMod
  /-- The modifiers that change a word. -/
  wordMods : List Nat
  /-- The word modifier that leaves out the space after the word. -/
  nospace : Nat
  /-- The word modifier that capitalizes the word. -/
  capital : Nat
  /-- The word modifier that repeats the last key. -/
  double : Option Nat
  /-- The word modifier that drops the last key. -/
  shorten : Option Nat
  modCount : Nat

namespace Registry

variable {B : Nat}

def isValidMode (reg : Registry B) (mode : Nat) : Bool :=
  mode < reg.modes.length

/-- The number of the mode that stands for `mode`: the first one if there is no
such mode. -/
def modeIndex (reg : Registry B) (mode : Nat) : Nat :=
  if reg.isValidMode mode then mode else 0

/-- The mode that stands for number `mode`. There is none only in a registry
without modes. -/
def mode? (reg : Registry B) (mode : Nat) : Option (Mode B) :=
  reg.modes[reg.modeIndex mode]?

def dictionary? (reg : Registry B) (id : Nat) : Option Dictionary :=
  reg.dictionaries[id]?

/-- The number of anagrams of a mode. -/
def anagramCount (reg : Registry B) (mode : Nat) : Nat :=
  match reg.mode? mode with
  | some m => m.anagramCount
  | none => 1

theorem anagramCount_pos (reg : Registry B) (mode : Nat) : 0 < reg.anagramCount mode := by
  unfold anagramCount
  split
  · exact Mode.anagramCount_pos _
  · exact Nat.one_pos

/-- The number at which the anagram number of a chord wraps around. Anagram
numbers are kept in a byte, so the count is cut to one. -/
def anagramCycle (reg : Registry B) (mode : Nat) : Nat :=
  reg.anagramCount mode % 256

theorem anagramCycle_of_lt {reg : Registry B} {mode : Nat} (h : reg.anagramCount mode < 256) :
    reg.anagramCycle mode = reg.anagramCount mode :=
  Nat.mod_eq_of_lt h

theorem mode?_of_isValidMode {reg : Registry B} {mode : Nat} (h : reg.isValidMode mode = true) :
    reg.mode? mode = reg.modes[mode]? := by
  rw [mode?, modeIndex, if_pos h]

end Registry

end Chordboard
