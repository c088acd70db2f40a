import Chordboard.Chord

/-!
# Changing a chord that was sent

The chord of the last word can be moved to its next anagram, capitalized,
or sent with or without a space. What a capital means is settled from the
word's keys when the chord is first capitalized this way, and stays settled
from then on.
-/

namespace Chordboard

namespace Chord

variable {B : Nat}

/-- Moves to the next anagram number, the first one after the last. -/
def cycleAnagram (reg : Registry B) (c : Chord B) : Chord B :=
  let next := (c.anagram + 1) % reg.anagramCycle c.mode
  { c with anagram := next, anagramsTaken := BitVec.twoPow maxAnagrams next }

def cycleNospace (reg : Registry B) (c : Chord B) : Chord B :=
  { c with mods := c.mods.toggle reg.nospace }

/-- Settles what a capital means, unless that is settled. -/
def settleCapital (c : Chord B) (keys : List Key) : Chord B :=
  if c.mods.capitalSettled then c
  else { c with capitalRule := CapitalRule.ofKeys keys, mods := c.mods.settleCapital }

def cycleCapital (reg : Registry B) (c : Chord B) (keys : List Key) : Chord B :=
  let c := c.settleCapital keys
  { c with mods := c.mods.toggle reg.capital }

/-- What a capital means for the chord, sent as `keys`. -/
def ruleFor (c : Chord B) (keys : List Key) : CapitalRule :=
  if c.mods.capitalSettled then c.capitalRule else CapitalRule.ofKeys keys

end Chord

end Chordboard
