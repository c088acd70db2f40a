import Chordboard.Chord
import Chordboard.Settings
import Chordboard.Switches.Grouping

/-!
# The switches

The switches of a keyboard are sampled once per tick. In a chorded mode
(`updateChorded`) samples are debounced, the accepted transitions start the
shared timers, and sent switches that stay down, or that are down at a
double tap, may join the next chord. In a gaming mode (`updateGaming`) the
slots follow their samples at once.

After an update the engine asks whether a chord is to be sent (`pressDue`)
and whether a batch of releases is to be reported (`releaseDue`); either
question takes away what it answers.
-/

namespace Chordboard

/-- Every switch has a slot. -/
instance {n : Nat} : GetElem (Vector Slot n) (Fin n) Slot fun _ _ => True where
  getElem slots i _ := slots.get i

@[simp] theorem getElem_slots {n : Nat} (slots : Vector Slot n) (i : Fin n) :
    slots[i] = slots[i.val] := rfl

/-- The slots of `n` switches and what they share. -/
@[ext]
structure Switches (n : Nat) where
  slots : Vector Slot n
  grouping : Grouping n
  /-- In a gaming mode: some switch went up or down, and nobody has asked. -/
  gamingChanged : Bool
deriving DecidableEq

namespace Switches

variable {n B : Nat}

/-- All switches are up. -/
def new (n : Nat) (settings : Settings) : Switches n where
  slots := Vector.replicate n (Slot.new settings.debounce)
  grouping := Grouping.new n settings.chord settings.held
  gamingChanged := false

/-- Changes the delays. Timers that are running keep their own. -/
def applySettings (s : Switches n) (settings : Settings) : Switches n :=
  { s with
    slots := s.slots.map fun slot => { slot with timer := slot.timer.setDelay settings.debounce }
    grouping := s.grouping.setDelays settings.chord settings.held }

/-- The status of a switch; one that does not exist is not pressed. -/
def status (s : Switches n) (i : Nat) : SwitchStatus :=
  match s.slots[i]? with
  | some slot => slot.status
  | none => .notPressed

def anyDown (s : Switches n) : Bool :=
  s.slots.any Slot.isDown

/-- Lets every sent switch that is still down join the next chord. -/
def promoteSent (s : Switches n) : Switches n :=
  { s with slots := s.slots.map Slot.promote }

/-! ## Sampling -/

/-- The transitions that a sample makes accepted, in the order of the
switches. -/
def transitions (now : Nat) (sample : Fin n → Bool) (s : Switches n) :
    List (Fin n × Transition) :=
  (List.finRange n).filterMap fun i => (s.slots[i].step now (sample i)).2.map (i, ·)

def stepSlots (now : Nat) (sample : Fin n → Bool) (s : Switches n) : Vector Slot n :=
  Vector.ofFn fun i => (s.slots[i].step now (sample i)).1

def debounce (now : Nat) (sample : Fin n → Bool) (s : Switches n) : Switches n :=
  { s with
    slots := s.stepSlots now sample
    grouping := s.grouping.acceptAll now (s.transitions now sample) }

/-- Promotes the sent switches if the held timer has run out. -/
def checkHeld (now : Nat) (s : Switches n) : Switches n :=
  let held := s.grouping.heldTimer.take now
  let s := { s with grouping := { s.grouping with heldTimer := held.2 } }
  if held.1 then s.promoteSent else s

/-- Promotes the sent switches if there was a double tap. -/
def checkDoubleTap (s : Switches n) : Switches n :=
  if s.grouping.doubleTapped then
    { s with grouping := { s.grouping with doubleTapped := false } }.promoteSent
  else s

/-- Takes a sample in a chorded mode. -/
def updateChorded (now : Nat) (sample : Fin n → Bool) (s : Switches n) : Switches n :=
  ((s.debounce now sample).checkHeld now).checkDoubleTap

/-- Takes a sample in a gaming mode. -/
def updateGaming (sample : Fin n → Bool) (s : Switches n) : Switches n :=
  { s with
    slots := Vector.ofFn fun i => s.slots[i].stepGaming (sample i)
    gamingChanged :=
      s.gamingChanged || (List.finRange n).any fun i => s.slots[i].isDown != sample i }

def update (now : Nat) (gaming : Bool) (sample : Fin n → Bool) (s : Switches n) : Switches n :=
  if gaming then s.updateGaming sample else s.updateChorded now sample

/-! ## What is due -/

/-- A chord is to be sent: in a gaming mode after any change, otherwise when
the chord timer has run out. -/
def pressDue (now : Nat) (gaming : Bool) (s : Switches n) : Bool × Switches n :=
  if gaming then (s.gamingChanged, { s with gamingChanged := false })
  else
    let chord := s.grouping.chordTimer.take now
    (chord.1, { s with grouping := { s.grouping with chordTimer := chord.2 } })

/-- A batch of releases is to be reported. A gaming mode has no releases of its
own. -/
def releaseDue (now : Nat) (gaming : Bool) (s : Switches n) : Bool × Switches n :=
  if gaming then (false, s)
  else
    let release := s.grouping.releaseTimer.take now
    (release.1, { s with grouping := { s.grouping with releaseTimer := release.2 } })

/-! ## Assembling chords -/

/-- The switches of the next chord, in order. -/
def joining (s : Switches n) : List Nat :=
  ((List.finRange n).filter fun i => s.slots[i].joins).map Fin.val

def markSent (s : Switches n) : Switches n :=
  { s with slots := s.slots.map Slot.markSent }

/-- The pressed and the held switches as one pattern; the pressed ones are
sent from then on. -/
def assemble (B : Nat) (s : Switches n) : Pattern B × Switches n :=
  (Pattern.ofSwitches s.joining, s.markSent)

def downSwitches (s : Switches n) : List Nat :=
  ((List.finRange n).filter fun i => s.slots[i].isDown).map Fin.val

/-- A chord for each switch that is down; the pressed ones are sent from then
on. -/
def assembleSingles (B mode : Nat) (s : Switches n) : List (Chord B) × Switches n :=
  (s.downSwitches.map fun i => (Chord.new B mode).insert i, s.markSent)

/-- The switches of the modifiers that were taken out of a chord. -/
def modSwitches (reg : Registry B) (c : Chord B) : Pattern B :=
  match reg.mode? c.mode with
  | none => Pattern.blank
  | some mode =>
      ((List.range reg.modCount).filter c.mods.has).foldl
        (fun acc id => acc.union (mode.modChord id)) Pattern.blank

/-- Lets the switches of the modifiers that were taken out of a chord join the
next one, if they are still down. -/
def reuseMods (reg : Registry B) (c : Chord B) (s : Switches n) : Switches n :=
  let p := modSwitches reg c
  { s with
    slots := Vector.ofFn fun i => if p.has i then s.slots[i].reuse else s.slots[i] }

/-! ## First facts -/

@[simp] theorem getElem_stepSlots (now : Nat) (sample : Fin n → Bool) (s : Switches n)
    (i : Nat) (h : i < n) :
    (s.stepSlots now sample)[i] = (s.slots[i].step now (sample ⟨i, h⟩)).1 := by
  simp [stepSlots]

theorem mem_transitions {now : Nat} {sample : Fin n → Bool} {s : Switches n} {i : Fin n}
    {t : Transition} :
    (i, t) ∈ s.transitions now sample ↔ (s.slots[i].step now (sample i)).2 = some t := by
  simp [transitions, List.mem_filterMap]

/-- Switch `i` is in the assembled pattern exactly when it is pressed or
held. -/
theorem has_assemble {s : Switches n} {i : Nat} (hn : n ≤ 8 * B) (h : i < n) :
    ((s.assemble B).1).has i = s.slots[i].joins := by
  have hi : i < 8 * B := by omega
  simp only [assemble, Pattern.has_ofSwitches, hi, decide_true, Bool.true_and, joining,
    List.mem_map, List.mem_filter, List.mem_finRange, true_and]
  rw [Bool.eq_iff_iff, decide_eq_true_iff]
  constructor
  · rintro ⟨a, ha, rfl⟩
    exact ha
  · intro hj
    exact ⟨⟨i, h⟩, hj, rfl⟩

end Switches

end Chordboard
