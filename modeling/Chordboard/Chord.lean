import Chordboard.Registry

/-!
# Chords

A chord is a set of switches together with what has been taken out of it:
the modifiers, and the anagram number that some of its switches chose. It
belongs to a mode, which says what its switches mean.
-/

namespace Chordboard

/-- What a capital letter means for a word. -/
inductive CapitalRule where
  /-- The first key is a letter: shift it. -/
  | raise
  /-- The first key is a shifted letter already: do not shift it. -/
  | lower
  /-- The first key is not a letter: leave it alone. -/
  | keep
deriving DecidableEq, Repr

namespace CapitalRule

/-- The rule that fits a sequence of keys. -/
def ofKeys : List Key → CapitalRule
  | [] => .keep
  | first :: _ =>
      if KeyCode.isLetter first.code then
        if Modifier.isShifted first.mods then .lower else .raise
      else .keep

/-- Changes the first key by the rule. -/
def apply : CapitalRule → List Key → List Key
  | _, [] => []
  | .raise, first :: rest => { first with mods := first.mods ||| Modifier.leftShift } :: rest
  | .lower, first :: rest => { first with mods := first.mods &&& ~~~Modifier.shift } :: rest
  | .keep, keys => keys

@[simp] theorem length_apply (rule : CapitalRule) (keys : List Key) :
    (rule.apply keys).length = keys.length := by
  cases rule <;> cases keys <;> rfl

@[simp] theorem apply_keep (keys : List Key) : keep.apply keys = keys := by
  cases keys <;> rfl

end CapitalRule

/-- A set of switches and what has been taken out of it. -/
structure Chord (B : Nat) where
  bits : Pattern B
  mods : ModFlags
  anagram : Nat
  /-- The anagram numbers whose switches were taken out. -/
  anagramsTaken : BitVec maxAnagrams
  /-- The settled meaning of a capital; it counts only where the flags say that
  it has been settled. -/
  capitalRule : CapitalRule
  mode : Nat
deriving DecidableEq

namespace Chord

variable {B : Nat}

/-! ## Making chords -/

/-- The switches `bits` in a mode, with nothing taken out. -/
def ofBits (mode : Nat) (bits : Pattern B) : Chord B where
  bits := bits
  mods := ModFlags.empty
  anagram := 0
  anagramsTaken := BitVec.zero maxAnagrams
  capitalRule := .raise
  mode := mode

def new (B mode : Nat) : Chord B := ofBits mode Pattern.blank

def clear (c : Chord B) : Chord B := new B c.mode

/-- Adds a switch, if there is room for it. -/
def insert (c : Chord B) (i : Nat) : Chord B :=
  { c with bits := c.bits.insert i }

def isEmpty (c : Chord B) : Bool := c.bits.isBlank

/-- The chord is the one written in `bytes`, and it is on the anagram of that
number or that entry is the sole one. -/
def isWritten (c : Chord B) (bytes : List UInt8) (anagram : Nat) (sole : Bool) : Bool :=
  c.bits.toBytes == bytes && (sole || c.anagram == anagram)

/-- To compare the bytes is to compare the patterns. -/
theorem isWritten_toBytes (c : Chord B) (p : Pattern B) (anagram : Nat) (sole : Bool) :
    c.isWritten p.toBytes anagram sole = true ↔
      c.bits = p ∧ (sole = true ∨ c.anagram = anagram) := by
  simp [isWritten, Pattern.toBytes_inj]

/-! ## The roles of modifiers -/

def hasNospace (reg : Registry B) (c : Chord B) : Bool := c.mods.has reg.nospace

def setNospace (reg : Registry B) (c : Chord B) : Chord B :=
  { c with mods := c.mods.set reg.nospace }

def hasCapital (reg : Registry B) (c : Chord B) : Bool := c.mods.has reg.capital

/-- The chord has a modifier, if there is one for the role. -/
def hasRole (c : Chord B) (role : Option Nat) : Bool :=
  match role with
  | some id => c.mods.has id
  | none => false

def hasDouble (reg : Registry B) (c : Chord B) : Bool := c.hasRole reg.double

def hasShorten (reg : Registry B) (c : Chord B) : Bool := c.hasRole reg.shorten

/-- The modifier byte of the plain modifiers that were taken out. -/
def modByte (reg : Registry B) (c : Chord B) : UInt8 :=
  (reg.plainMods.filter fun m => c.mods.has m.id).foldl (fun acc m => acc ||| m.hid) 0

end Chord

end Chordboard
