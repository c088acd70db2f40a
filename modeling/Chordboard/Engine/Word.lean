import Chordboard.Engine

/-!
# Words

A word is looked up, spelled by the modifiers of its chord, and remembered.
A cycle command replaces the word that was sent last: it erases the keys
that were sent, one backspace for each, and sends the word of the changed
chord. Anagram numbers without an entry are passed over.
-/

namespace Chordboard

namespace Engine

variable {B n : Nat}

/-- Sends the word of a chord and remembers it; there is no outcome if no word
is found. -/
def sendWord? (reg : Registry B) (e : Engine B n) (c : Chord B) : Option (Outcome B n) :=
  match reg.lookup .word c with
  | none => none
  | some found =>
      let keys := c.spell reg found
      some ({ e with lastWord := some ⟨c, keys.length⟩ },
        [.event (.sequence keys (e.modsOf reg c))])

/-- Cycles through at most `count` anagrams until one of them has a word. -/
def nextAnagram (reg : Registry B) : (count : Nat) → Chord B → Chord B
  | 0, c => c
  | count + 1, c =>
      let c := c.cycleAnagram reg
      if (reg.lookup .word c).isSome then c else nextAnagram reg count c

/-- The chord of the last word after a cycle command. -/
def cycleChord (reg : Registry B) (what : Cycle) (c : Chord B) : Chord B :=
  match what with
  | .anagram => nextAnagram reg (reg.anagramCount c.mode) c
  | .capital => c.cycleCapital reg ((reg.lookup .word c).getD [])
  | .nospace => c.cycleNospace reg

def backspaceKey : Key := Key.plain KeyCode.backspace

def eraseEvent (sent : Nat) : Event :=
  .sequence (List.replicate (min sent maxKeys) backspaceKey) 0

def cycleLastWord (reg : Registry B) (e : Engine B n) (what : Cycle) : Outcome B n :=
  match e.lastWord with
  | none => (e, [])
  | some last =>
      let erase := Report.event (eraseEvent last.sent)
      match e.sendWord? reg (cycleChord reg what last.chord) with
      | some sent => (sent.1, erase :: sent.2)
      | none => (e.forget, [erase])

def runCommand (reg : Registry B) (e : Engine B n) : Command → Outcome B n
  | .cycle what => e.cycleLastWord reg what
  | .releaseAll => (e.reset, [.releaseAll])
  | .toggleSticky mods =>
      let e := { e with sticky := e.sticky ^^^ mods }
      (e, [.event e.releaseEvent])
  | .setMode mode => e.setMode reg mode

/-- Acts on the keys of a command entry, which may give no order. -/
def runKeys (reg : Registry B) (e : Engine B n) (keys : List Key) : Outcome B n :=
  match Command.ofKeys? keys with
  | some command => e.runCommand reg command
  | none => (e, [])

/-- What `sendWord?` does, when it does anything. -/
theorem sendWord?_eq_some_iff {reg : Registry B} {e : Engine B n} {c : Chord B}
    {o : Outcome B n} :
    e.sendWord? reg c = some o ↔
      ∃ found, reg.lookup .word c = some found ∧
        o = ({ e with lastWord := some ⟨c, (c.spell reg found).length⟩ },
          [.event (.sequence (c.spell reg found) (e.modsOf reg c))]) := by
  unfold sendWord?
  split
  · rename_i h
    simp [h]
  · rename_i found h
    simp [h, eq_comm]

end Engine

end Chordboard
