import Chordboard.Engine.Word

/-!
# One tick

A tick samples the switches at the time `now` and reports what became
ready: first a chord, or in a gaming mode the keys of all switches that are
down, then a batch of releases. Whether the mode is a gaming mode is settled
at the start of the tick, so a command that leaves it takes effect with the
next one.

A chord is a command, or it consists of modifiers alone, or it stands for
plain keys or an expansion once the plain modifiers are taken out, or for a
word once the word modifier and the anagram are taken out too, or for
nothing.
-/

namespace Chordboard

namespace Engine

variable {B n : Nat}

/-! ## Chords -/

/-- The keys of a chord that are sent as they are. -/
def lookupKeys (reg : Registry B) (c : Chord B) : Option (List Key) :=
  (reg.lookup .plain c).or (reg.lookup .expansion c)

/-- A word if there is one. -/
def sendWordChord (reg : Registry B) (e : Engine B n) (c : Chord B) : Outcome B n :=
  let c := (c.extractWord reg).extractAnagram reg
  match e.sendWord? reg c with
  | some sent => (sent.1.reuseMods reg c, sent.2)
  | none => (e, [])

/-- A chord that is no command: a hold, keys, or a word. -/
def sendKeyChord (reg : Registry B) (e : Engine B n) (c : Chord B) : Outcome B n :=
  let c := c.extractPlain reg
  let mods := e.modsOf reg c
  if c.isEmpty then (e.reuseMods reg c, [.event (.hold [] mods)])
  else
    match lookupKeys reg c with
    | some keys => ((e.reuseMods reg c).forget, [.event (.sequence keys mods)])
    | none => e.sendWordChord reg c

/-- Acts on an assembled chord. -/
def dispatch (reg : Registry B) (e : Engine B n) (c : Chord B) : Outcome B n :=
  if c.isEmpty then (e, [])
  else
    match reg.lookup .command c with
    | some keys => e.runKeys reg keys
    | none => e.sendKeyChord reg c

def sendChord (reg : Registry B) (e : Engine B n) : Outcome B n :=
  let assembled := e.switches.assemble B
  { e with switches := assembled.2 }.dispatch reg (Chord.ofBits e.mode assembled.1)

/-! ## Gaming -/

/-- Adds the keys and modifiers of one switch to those gathered before. -/
def gather (reg : Registry B) (acc : List Key × UInt8) (c : Chord B) : List Key × UInt8 :=
  let c := c.extractPlain reg
  let mods := acc.2 ||| c.modByte reg
  if c.isEmpty then (acc.1, mods)
  else (((reg.lookup .plain c).getD []).foldl addKey acc.1, mods)

/-- Holds the keys of all switches that are down, each looked up on its own. -/
def sendGaming (reg : Registry B) (e : Engine B n) : Outcome B n :=
  let assembled := e.switches.assembleSingles B e.mode
  let gathered := assembled.1.foldl (gather reg) ([], e.sticky)
  ({ e with switches := assembled.2 }, [.event (.hold gathered.1 gathered.2)])

/-! ## The tick -/

def sample (e : Engine B n) (now : Nat) (gaming : Bool) (down : Fin n → Bool) : Engine B n :=
  { e with switches := e.switches.update now gaming down }

/-- Sends what is due to be pressed. -/
def pressPhase (reg : Registry B) (e : Engine B n) (now : Nat) (gaming : Bool) : Outcome B n :=
  let due := e.switches.pressDue now gaming
  let e := { e with switches := due.2 }
  if due.1 then
    if gaming then e.sendGaming reg else e.sendChord reg
  else (e, [])

/-- Reports the releases that are due. -/
def releasePhase (e : Engine B n) (now : Nat) (gaming : Bool) : Outcome B n :=
  let due := e.switches.releaseDue now gaming
  let e := { e with switches := due.2 }
  (e, if due.1 then [.event e.releaseEvent] else [])

/-- Samples the switches at time `now` and reports what became ready. -/
def tick (reg : Registry B) (e : Engine B n) (now : Nat) (down : Fin n → Bool) :
    Outcome B n :=
  -- Asked once: a chord that changes the mode takes effect with the next tick.
  let gaming := e.isGaming reg
  let pressed := (e.sample now gaming down).pressPhase reg now gaming
  let released := pressed.1.releasePhase now gaming
  (released.1, pressed.2 ++ released.2)

end Engine

end Chordboard
