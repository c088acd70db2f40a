import Chordboard.Chord

/-!
# Taking modifiers out of a chord

Three kinds of switches are taken out of a chord before it is looked up:
those of plain modifiers, those of one word modifier, and those that choose
an anagram. Each step works on the switches that the steps before it have
left.

A modifier is taken out only where its whole chord is there. Of the word
modifiers one is taken out only if it is the only one there. The switches
of the anagram mask are taken out only if together they are the chord of an
anagram number. The two restoring steps put switches back.
-/

namespace Chordboard

namespace Chord

variable {B : Nat}

/-- A chord that is not blank is wholly there. -/
def offers (c : Chord B) (p : Pattern B) : Bool :=
  !p.isBlank && c.bits.contains p

/-- A pattern is offered if it has switches, and all of them are there. -/
theorem offers_iff {c : Chord B} {p : Pattern B} :
    c.offers p = true ↔
      (∃ i, p.has i = true) ∧ ∀ i, p.has i = true → c.bits.has i = true := by
  have hsome : p.isBlank = false ↔ ∃ i, p.has i = true := by
    rw [← Bool.not_eq_true, Pattern.isBlank_iff_has]
    simp
  rw [offers, Bool.and_eq_true, Bool.not_eq_true', Pattern.contains_iff, hsome]

/-- Takes out a modifier with the chord `p`. -/
def extract (c : Chord B) (p : Pattern B) (id : Nat) : Chord B :=
  if c.offers p then { c with bits := c.bits.diff p, mods := c.mods.set id } else c

/-- Puts back a modifier with the chord `p`. -/
def restore (c : Chord B) (p : Pattern B) (id : Nat) : Chord B :=
  if c.mods.has id then { c with bits := c.bits.union p, mods := c.mods.unset id } else c

/-! ## Plain modifiers -/

def extractPlain (reg : Registry B) (c : Chord B) : Chord B :=
  match reg.mode? c.mode with
  | none => c
  | some mode => reg.plainMods.foldl (fun c m => c.extract (mode.modChord m.id) m.id) c

/-! ## Word modifiers -/

/-- Takes out the word modifier that is the only one there. -/
def extractWord (reg : Registry B) (c : Chord B) : Chord B :=
  match reg.mode? c.mode with
  | none => c
  | some mode =>
      match reg.wordMods.filter fun id => c.offers (mode.modChord id) with
      | [id] => c.extract (mode.modChord id) id
      | _ => c

/-- Puts every word modifier back. -/
def restoreWord (reg : Registry B) (c : Chord B) : Chord B :=
  match reg.mode? c.mode with
  | none => c
  | some mode => reg.wordMods.foldl (fun c id => c.restore (mode.modChord id) id) c

/-! ## Anagrams -/

/-- The anagram number that the chord's switches choose in a mode. -/
def chosenAnagram? (c : Chord B) (mode : Mode B) : Option Nat :=
  if mode.anagramMask.isBlank then none
  else mode.anagramChords.findIdx? fun p => p == c.bits.inter mode.anagramMask

def extractAnagram (reg : Registry B) (c : Chord B) : Chord B :=
  match reg.mode? c.mode with
  | none => c
  | some mode =>
      match c.chosenAnagram? mode with
      | none => c
      | some i =>
          { c with
            bits := c.bits.diff mode.anagramMask
            anagram := i
            anagramsTaken := c.anagramsTaken ||| BitVec.twoPow maxAnagrams i }

/-- The switches of the anagram numbers that were taken out. -/
def anagramBits (c : Chord B) (mode : Mode B) : Pattern B :=
  mode.anagramChords.zipIdx.foldl
    (fun acc (p, i) => if c.anagramsTaken.getLsbD i then acc.union p else acc) Pattern.blank

/-- Puts the switches of the anagram back and goes back to the first anagram. -/
def restoreAnagram (reg : Registry B) (c : Chord B) : Chord B :=
  match reg.mode? c.mode with
  | none => c
  | some mode =>
      { c with
        bits := c.bits.union (c.anagramBits mode)
        anagram := 0
        anagramsTaken := BitVec.zero maxAnagrams }

/-! ## What a step leaves alone -/

@[simp] theorem mode_extract (c : Chord B) (p : Pattern B) (id : Nat) :
    (c.extract p id).mode = c.mode := by
  unfold extract
  split <;> rfl

@[simp] theorem mode_restore (c : Chord B) (p : Pattern B) (id : Nat) :
    (c.restore p id).mode = c.mode := by
  unfold restore
  split <;> rfl

/-- What taking out any modifier keeps, taking out the plain ones keeps. -/
theorem extractPlain_keeps {P : Chord B → Prop}
    (keeps : ∀ c p id, P c → P (c.extract p id)) (reg : Registry B) {c : Chord B} (h : P c) :
    P (c.extractPlain reg) := by
  unfold extractPlain
  split
  · exact h
  · exact List.foldlRecOn (motive := P) _ _ h fun c hc m _ => keeps c _ m.id hc

/-- What taking out any modifier keeps, taking out the word modifier keeps. -/
theorem extractWord_keeps {P : Chord B → Prop}
    (keeps : ∀ c p id, P c → P (c.extract p id)) (reg : Registry B) {c : Chord B} (h : P c) :
    P (c.extractWord reg) := by
  unfold extractWord
  split
  · exact h
  · split
    · exact keeps c _ _ h
    · exact h

@[simp] theorem mode_extractPlain (reg : Registry B) (c : Chord B) :
    (c.extractPlain reg).mode = c.mode := by
  refine extractPlain_keeps (P := fun c' => c'.mode = c.mode) ?_ reg rfl
  intro c' p id h
  rw [mode_extract, h]

@[simp] theorem mode_extractWord (reg : Registry B) (c : Chord B) :
    (c.extractWord reg).mode = c.mode := by
  refine extractWord_keeps (P := fun c' => c'.mode = c.mode) ?_ reg rfl
  intro c' p id h
  rw [mode_extract, h]

@[simp] theorem mode_extractAnagram (reg : Registry B) (c : Chord B) :
    (c.extractAnagram reg).mode = c.mode := by
  unfold extractAnagram
  split
  · rfl
  · split <;> rfl

end Chord

end Chordboard
