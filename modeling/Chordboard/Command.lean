import Chordboard.Key

/-!
# Commands

The keys of a command entry are an order to the engine. The code of the
first key says which one, and the modifiers to toggle stand in the code of
the second. Keys that are no order mean nothing and are passed over.
-/

namespace Chordboard

/-- What a cycle command changes about the last word. -/
inductive Cycle where
  | anagram
  | capital
  | nospace
deriving DecidableEq, Repr

/-- An order to the engine. -/
inductive Command where
  | cycle (what : Cycle)
  | releaseAll
  /-- Turn modifiers that stay in every report until they are turned again. -/
  | toggleSticky (mods : UInt8)
  | setMode (mode : Nat)
deriving DecidableEq, Repr

namespace Command

def cycleAnagramCode : UInt8 := 0x01
def cycleCapitalCode : UInt8 := 0x02
def cycleNospaceCode : UInt8 := 0x03
def releaseAllCode : UInt8 := 0x04
def toggleStickyCode : UInt8 := 0x05
def setModeFirst : UInt8 := 0x10
def setModeLast : UInt8 := 0x1f

/-- The order of a key code and the code that follows it. -/
def ofCode? (code : UInt8) (argument : Option UInt8) : Option Command :=
  if code = cycleAnagramCode then some (.cycle .anagram)
  else if code = cycleCapitalCode then some (.cycle .capital)
  else if code = cycleNospaceCode then some (.cycle .nospace)
  else if code = releaseAllCode then some .releaseAll
  else if code = toggleStickyCode then argument.map .toggleSticky
  else if setModeFirst ≤ code ∧ code ≤ setModeLast then
    some (.setMode (code - setModeFirst).toNat)
  else none

def ofKeys? : List Key → Option Command
  | [] => none
  | first :: rest => ofCode? first.code (rest.head?.map Key.code)

end Command

end Chordboard
