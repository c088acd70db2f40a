import Chordboard.Chord.Cycling

/-!
# Spelling a word

The keys of a word are changed by the word modifiers of its chord: they are
shortened by a key, then their last key is repeated, then the first one is
capitalized, and a space follows unless the chord leaves it out. Keys for
which there is no room are left out.
-/

namespace Chordboard

namespace Chord

variable {B : Nat}

def repeatLast (keys : List Key) : List Key :=
  match keys.getLast? with
  | some last => addKey keys last
  | none => keys

/-- Drops the last key, then repeats the one that is last, as the modifiers
say. -/
def editLength (reg : Registry B) (c : Chord B) (keys : List Key) : List Key :=
  let keys := if c.hasShorten reg then keys.dropLast else keys
  if c.hasDouble reg then repeatLast keys else keys

def editCapital (reg : Registry B) (c : Chord B) (keys : List Key) : List Key :=
  if c.hasCapital reg then (c.ruleFor keys).apply keys else keys

def spaceKey : Key := Key.plain KeyCode.space

/-- The keys to send for a word that the dictionary spells `keys`. -/
def spell (reg : Registry B) (c : Chord B) (keys : List Key) : List Key :=
  let keys := c.editCapital reg (c.editLength reg keys)
  if c.hasNospace reg then keys else addKey keys spaceKey

/-! ## Lengths -/

theorem length_repeatLast_le {keys : List Key} (h : keys.length ≤ maxKeys) :
    (repeatLast keys).length ≤ maxKeys := by
  unfold repeatLast
  split
  · exact length_addKey_le _ h
  · exact h

theorem length_editLength_le (reg : Registry B) (c : Chord B) {keys : List Key}
    (h : keys.length ≤ maxKeys) : (c.editLength reg keys).length ≤ maxKeys := by
  have hshort : (if c.hasShorten reg then keys.dropLast else keys).length ≤ maxKeys := by
    split
    · rw [List.length_dropLast]
      omega
    · exact h
  unfold editLength
  dsimp only
  split
  · exact length_repeatLast_le hshort
  · exact hshort

@[simp] theorem length_editCapital (reg : Registry B) (c : Chord B) (keys : List Key) :
    (c.editCapital reg keys).length = keys.length := by
  unfold editCapital
  split <;> simp

/-- There is room for what a word is spelled as. -/
theorem length_spell_le (reg : Registry B) (c : Chord B) {keys : List Key}
    (h : keys.length ≤ maxKeys) : (c.spell reg keys).length ≤ maxKeys := by
  have hedited : (c.editCapital reg (c.editLength reg keys)).length ≤ maxKeys := by
    rw [length_editCapital]
    exact length_editLength_le reg c h
  unfold spell
  dsimp only
  split
  · exact hedited
  · exact length_addKey_le _ hedited

end Chord

end Chordboard
