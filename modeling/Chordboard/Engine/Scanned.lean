import Chordboard.Engine.Tick
import Chordboard.Scanner

/-!
# An engine on a scanner

A tick of the engine scans its hardware once and then takes what the scan
saw as its sample. That something changed since the last scan makes no
difference. On a keyboard, switches are moved between the ticks.
-/

namespace Chordboard

namespace Engine

variable {B n : Nat} {σ : Type} [Scanner σ]

/-- The switches as the last scan saw them. -/
def seen (n : Nat) (hardware : σ) : Fin n → Bool :=
  fun i => Scanner.isDown hardware i

/-- Scans, and ticks on what was seen. -/
def tickOn (reg : Registry B) (e : Engine B n) (now : Nat) (hardware : σ) :
    Outcome B n × σ :=
  let hardware := (Scanner.scan hardware).2
  (e.tick reg now (seen n hardware), hardware)

/-- One thing that happens to an engine on a keyboard. -/
inductive KeyboardInput where
  | move (k : Nat) (down : Bool)
  | tick (now : Nat)
  | control (m : ControlMessage)
  | apply (settings : Settings)

section keyboard

variable {κ : Type} [Keyboard κ]

def stepOn (reg : Registry B) (e : Engine B n) (hardware : κ) :
    KeyboardInput → Outcome B n × κ
  | .move k down => ((e, []), Keyboard.move hardware k down)
  | .tick now => e.tickOn reg now hardware
  | .control m => ((e.control reg m).1, hardware)
  | .apply settings => ((e.applySettings settings, []), hardware)

def runOn (reg : Registry B) (e : Engine B n) (hardware : κ) :
    List KeyboardInput → Outcome B n × κ
  | [] => ((e, []), hardware)
  | i :: rest =>
      let first := e.stepOn reg hardware i
      let later := runOn reg first.1.1 first.2 rest
      ((later.1.1, first.1.2 ++ later.1.2), later.2)

end keyboard

end Engine

end Chordboard
