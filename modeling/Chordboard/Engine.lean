import Chordboard.Chord.Extraction
import Chordboard.Chord.Spelling
import Chordboard.Command
import Chordboard.EventQueue
import Chordboard.Lookup
import Chordboard.Registry.Validation
import Chordboard.Switches

/-!
# The engine

The engine turns samples of the switches into reports. Its state is the
mode, the switches, the last word that was sent, and the sticky modifiers.
Every step answers the new state and the reports it makes, in order; the
registry is given to each step and never changes.

This file holds the state and the steps that do not depend on a chord:
going to another mode, new settings, control messages, and the release that
leaves the sticky modifiers down.

Nothing is logged here. Where a defect of the registry would be logged, only
the fallback is taken, and the switches keep no record of their statuses
that nothing but a log would read. Sizes are not checked either: that a
pattern has a bit for every switch, or that the queue has its least number
of places, is a hypothesis of the theorems that need it.
-/

namespace Chordboard

/-- The word that was sent last, so that it can be replaced. -/
structure LastWord (B : Nat) where
  chord : Chord B
  /-- The number of keys that were sent, with the space. -/
  sent : Nat
deriving DecidableEq

/-- An order from outside to a running engine. -/
inductive ControlMessage where
  | setMode (mode : Nat)
  | exit
deriving DecidableEq, Repr

/-- The state of an engine for `n` switches and chords of `B` bytes. -/
structure Engine (B n : Nat) where
  settings : Settings
  switches : Switches n
  mode : Nat
  lastWord : Option (LastWord B)
  /-- Modifiers that are down in every report. -/
  sticky : UInt8
deriving DecidableEq

/-- A state and the reports made on the way to it. -/
abbrev Engine.Outcome (B n : Nat) : Type := Engine B n × List Report

namespace Engine

variable {B n : Nat}

/-- An engine in the first mode, with all switches up. -/
def fresh (B n : Nat) (settings : Settings) : Engine B n where
  settings := settings
  switches := Switches.new n settings
  mode := 0
  lastWord := none
  sticky := 0

/-- Starts an engine on a registry without defects. -/
def start (reg : Registry B) (n : Nat) (settings : Settings) :
    Except ConfigError (Engine B n) :=
  match reg.validate with
  | .error e => .error e
  | .ok () => .ok (fresh B n settings)

def applySettings (e : Engine B n) (settings : Settings) : Engine B n :=
  { e with settings, switches := e.switches.applySettings settings }

/-- Every switch is reported on its own. -/
def isGaming (reg : Registry B) (e : Engine B n) : Bool :=
  match reg.mode? e.mode with
  | some m => m.gaming
  | none => false

def forget (e : Engine B n) : Engine B n :=
  { e with lastWord := none }

def reset (e : Engine B n) : Engine B n :=
  { e with lastWord := none, sticky := 0 }

/-- Goes to a mode, with everything released. A mode that does not exist is
passed over. -/
def setMode (reg : Registry B) (e : Engine B n) (mode : Nat) : Outcome B n :=
  if reg.isValidMode mode then ({ e.reset with mode }, [.event .release]) else (e, [])

/-- Acts on a control message: the outcome, and whether to stop. -/
def control (reg : Registry B) (e : Engine B n) : ControlMessage → Outcome B n × Bool
  | .setMode mode => (e.setMode reg mode, false)
  | .exit => ((e, []), true)

/-- The event that releases every key but the sticky modifiers. -/
def releaseEvent (e : Engine B n) : Event :=
  if e.sticky = 0 then .release else .hold [] e.sticky

/-- The modifiers of a chord's report. -/
def modsOf (reg : Registry B) (e : Engine B n) (c : Chord B) : UInt8 :=
  c.modByte reg ||| e.sticky

/-- Lets the switches of a chord's modifiers join the next chord. -/
def reuseMods (reg : Registry B) (e : Engine B n) (c : Chord B) : Engine B n :=
  { e with switches := e.switches.reuseMods reg c }

theorem start_eq_ok_iff {reg : Registry B} {settings : Settings} {e : Engine B n} :
    start reg n settings = .ok e ↔ reg.Valid ∧ e = fresh B n settings := by
  rw [← Registry.validate_eq_ok_iff, start]
  split
  · rename_i h
    simp [h]
  · rename_i h
    simp [h, eq_comm]

end Engine

end Chordboard
