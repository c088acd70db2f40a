/-!
# Keys

A key is a HID usage code together with the modifier byte it is tapped
under. This file holds the code ranges and the codes with a name, the
eight bits of the modifier byte, and key sequences, which hold at most
`maxKeys` keys: a key that finds no room is left out (`addKey`).
-/

namespace Chordboard

/-! ## Usage codes -/

namespace KeyCode

def basicFirst : UInt8 := 0x04
def basicLast : UInt8 := 0xa4
def letterA : UInt8 := 0x04
def letterZ : UInt8 := 0x1d
def digit1 : UInt8 := 0x1e
def digit0 : UInt8 := 0x27
def modifierFirst : UInt8 := 0xe0
def modifierLast : UInt8 := 0xe7

/-- The largest code that fits into the six bits of a packed key. -/
def packedLast : UInt8 := 0x3f

def noKey : UInt8 := 0x00
def enter : UInt8 := 0x28
def escape : UInt8 := 0x29
def backspace : UInt8 := 0x2a
def tab : UInt8 := 0x2b
def space : UInt8 := 0x2c

/-- The letters are one unbroken range of codes. -/
def isLetter (code : UInt8) : Bool :=
  letterA ≤ code && code ≤ letterZ

theorem isLetter_iff {code : UInt8} :
    isLetter code = true ↔ letterA ≤ code ∧ code ≤ letterZ := by
  simp [isLetter]

/-- The keys that stand between the digits and the signs. -/
def editing : List UInt8 := [enter, escape, backspace, tab, space]

theorem bounds_of_mem_editing {code : UInt8} (h : code ∈ editing) : enter ≤ code ∧ code ≤ space := by
  simp only [editing, List.mem_cons, List.not_mem_nil, or_false] at h
  rcases h with rfl | rfl | rfl | rfl | rfl <;> decide

/-- Letters, digits and editing keys are basic keys, and small enough for a packed table. -/
theorem basic_of_typed {code : UInt8}
    (h : isLetter code = true ∨ digit1 ≤ code ∧ code ≤ digit0 ∨ code ∈ editing) :
    basicFirst ≤ code ∧ code ≤ basicLast ∧ code ≤ packedLast := by
  have hrange : letterA ≤ code ∧ code ≤ space := by
    rcases h with h | h | h
    · obtain ⟨hfirst, hlast⟩ := isLetter_iff.1 h
      exact ⟨hfirst, UInt8.le_trans hlast (by decide)⟩
    · exact ⟨UInt8.le_trans (by decide) h.1, UInt8.le_trans h.2 (by decide)⟩
    · obtain ⟨hfirst, hlast⟩ := bounds_of_mem_editing h
      exact ⟨UInt8.le_trans (by decide) hfirst, hlast⟩
  exact ⟨hrange.1, UInt8.le_trans hrange.2 (by decide), UInt8.le_trans hrange.2 (by decide)⟩

/-- Digits and editing keys are no letters. -/
theorem isLetter_eq_false {code : UInt8}
    (h : code = noKey ∨ digit1 ≤ code ∧ code ≤ digit0 ∨ code ∈ editing) :
    isLetter code = false := by
  have past : digit1 ≤ code → isLetter code = false := by
    intro hdigit
    rw [← Bool.not_eq_true, isLetter_iff]
    intro hletter
    exact absurd (UInt8.le_trans hdigit hletter.2) (by decide)
  rcases h with rfl | h | h
  · decide
  · exact past h.1
  · exact past (UInt8.le_trans (by decide) (bounds_of_mem_editing h).1)

end KeyCode

/-! ## The modifier byte -/

namespace Modifier

def leftCtrl : UInt8 := 0x01
def leftShift : UInt8 := 0x02
def leftAlt : UInt8 := 0x04
def leftGui : UInt8 := 0x08
def rightCtrl : UInt8 := 0x10
def rightShift : UInt8 := 0x20
def rightAlt : UInt8 := 0x40
def rightGui : UInt8 := 0x80
def shift : UInt8 := leftShift ||| rightShift

/-- The bit of a modifier key, counted from the first modifier code; no bit
for any other code. -/
def ofKeyCode (code : UInt8) : UInt8 :=
  if KeyCode.modifierFirst ≤ code ∧ code ≤ KeyCode.modifierLast then
    1 <<< (code - KeyCode.modifierFirst)
  else 0

/-- Either shift key is in the modifier byte. -/
def isShifted (mods : UInt8) : Bool :=
  mods &&& shift != 0

/-- The modifier keys, in the order of their codes. -/
def keys : List UInt8 :=
  [leftCtrl, leftShift, leftAlt, leftGui, rightCtrl, rightShift, rightAlt, rightGui]

theorem forall_byte {p : UInt8 → Prop} (h : ∀ n : Fin 256, p (UInt8.ofFin n)) (byte : UInt8) :
    p byte :=
  UInt8.ofFin_toFin byte ▸ h byte.toFin

/-- The eight codes from `modifierFirst` on are those of the modifier keys, and no other code has a
bit. -/
theorem ofKeyCode_eq (code : UInt8) :
    ofKeyCode code = keys.getD (code - KeyCode.modifierFirst).toNat 0 := by
  revert code
  exact forall_byte (by decide +kernel)

/-- A modifier byte is the union of the modifier keys in it. -/
theorem union_held (mods : UInt8) :
    (keys.filter fun key => mods &&& key != 0).foldl (· ||| ·) 0 = mods := by
  revert mods
  exact forall_byte (by decide +kernel)

/-- Basic keys are no modifiers. -/
theorem ofKeyCode_of_le {code : UInt8} (h : code ≤ KeyCode.basicLast) : ofKeyCode code = 0 := by
  refine if_neg fun hrange => ?_
  have hlt : KeyCode.basicLast < KeyCode.modifierFirst := by decide
  exact absurd (UInt8.le_trans hrange.1 h) (UInt8.not_le.2 hlt)

end Modifier

/-! ## Keys and sequences -/

/-- A key to tap, with the modifiers held down around the tap. -/
structure Key where
  code : UInt8
  mods : UInt8
deriving DecidableEq, Repr

namespace Key

/-- The key `code` without modifiers. -/
def plain (code : UInt8) : Key := ⟨code, 0⟩

end Key

/-- The longest sequence of keys that is ever sent at once. -/
def maxKeys : Nat := 64

/-- Appends a key if there is room for it. -/
def addKey (keys : List Key) (k : Key) : List Key :=
  if keys.length < maxKeys then keys ++ [k] else keys

theorem addKey_of_lt {keys : List Key} (k : Key) (h : keys.length < maxKeys) :
    addKey keys k = keys ++ [k] := if_pos h

theorem addKey_of_le {keys : List Key} (k : Key) (h : maxKeys ≤ keys.length) :
    addKey keys k = keys := if_neg (Nat.not_lt.2 h)

theorem length_addKey_le {keys : List Key} (k : Key) (h : keys.length ≤ maxKeys) :
    (addKey keys k).length ≤ maxKeys := by
  unfold addKey
  split
  · simp; omega
  · exact h

end Chordboard
