/-!
# Settings

The four delays of the engine, in ticks of one microsecond, and the stream
of 16-bit words that stores them: a version word, a number of pairs, and
that many pairs of a setting's number and its value in milliseconds. A
setting that is not in the stream keeps its usual value, of several values
for one setting the last one counts, and words after the pairs are ignored.
-/

namespace Chordboard

/-- The delays of the engine, in ticks. -/
structure Settings where
  /-- How long a switch must be steady before its change is accepted. -/
  debounce : Nat
  /-- Presses, or releases, within this delay of each other go together. -/
  chord : Nat
  /-- A sent switch kept down this long may join the next chord. -/
  held : Nat
  /-- The time between two scans. -/
  scan : Nat
deriving DecidableEq, Repr

/-- Why a stream of words holds no settings. -/
inductive SettingsError where
  | versionMismatch
  | corrupt
deriving DecidableEq, Repr

inductive Setting where
  | debounce
  | chord
  | held
  | scan
deriving DecidableEq, Repr

namespace Setting

def word : Setting → UInt16
  | .debounce => 0
  | .chord => 1
  | .held => 2
  | .scan => 3

/-- The setting of a number. -/
def ofWord? (w : UInt16) : Option Setting :=
  if w = 0 then some .debounce
  else if w = 1 then some .chord
  else if w = 2 then some .held
  else if w = 3 then some .scan
  else none

theorem ofWord?_eq_some_iff {w : UInt16} {s : Setting} :
    ofWord? w = some s ↔ w = s.word := by
  unfold ofWord?
  cases s <;> simp only [word] <;> grind

@[simp] theorem ofWord?_word (s : Setting) : ofWord? s.word = some s :=
  ofWord?_eq_some_iff.2 rfl

end Setting

namespace Settings

def version : UInt16 := 1

def milliseconds (value : UInt16) : Nat := value.toNat * 1000

def usual : Settings where
  debounce := milliseconds 10
  chord := milliseconds 30
  held := milliseconds 300
  scan := milliseconds 1

def get (s : Settings) : Setting → Nat
  | .debounce => s.debounce
  | .chord => s.chord
  | .held => s.held
  | .scan => s.scan

def set (s : Settings) (which : Setting) (ticks : Nat) : Settings :=
  match which with
  | .debounce => { s with debounce := ticks }
  | .chord => { s with chord := ticks }
  | .held => { s with held := ticks }
  | .scan => { s with scan := ticks }

@[simp] theorem get_set (s : Settings) (a b : Setting) (ticks : Nat) :
    (s.set a ticks).get b = if a = b then ticks else s.get b := by
  cases a <;> cases b <;> rfl

/-! ## Reading the stream -/

/-- Reads `count` pairs on top of the settings `s`. -/
def readPairs : (count : Nat) → List UInt16 → Settings → Except SettingsError Settings
  | 0, _, s => .ok s
  | count + 1, number :: value :: rest, s =>
      match Setting.ofWord? number with
      | some which => readPairs count rest (s.set which (milliseconds value))
      | none => .error .corrupt
  | _ + 1, _, _ => .error .corrupt

/-- Reads settings. A scan period of zero is refused once all pairs have been
read. -/
def load : List UInt16 → Except SettingsError Settings
  | [] => .error .corrupt
  | first :: words =>
      if first ≠ version then .error .versionMismatch
      else
        match words with
        | [] => .error .corrupt
        | count :: pairs =>
            match readPairs count.toNat pairs usual with
            | .error e => .error e
            | .ok s => if s.scan = 0 then .error .corrupt else .ok s

end Settings

end Chordboard
