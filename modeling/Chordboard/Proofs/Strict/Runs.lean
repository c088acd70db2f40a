import Chordboard.Proofs.Engine.LastWord
import Chordboard.Proofs.Strict.Chords

/-!
# Runs without a fallback

The engine with strict accesses: a run of it stops at the first access where there is nothing to
be had.

An engine that was started on a registry without defects, for no more switches than a chord has
room for, never stops there, and so it makes the run that the total functions make (`no_defect`).
What carries that through the run is that the mode of the engine exists, and that the last word
belongs to it (`Placed`).
-/

namespace Chordboard

variable {B n : Nat} {reg : Registry B}

namespace Strict

open Engine (Outcome Input)

/-! ## Words -/

/-- The modifiers of a chord's report. -/
def modsOf (reg : Registry B) (e : Engine B n) (c : Chord B) : Checked UInt8 := do
  return (← modByte reg c) ||| e.sticky

/-- Sends the word of a chord and remembers it; there is no outcome if no word is found. -/
def sendWord? (reg : Registry B) (e : Engine B n) (c : Chord B) :
    Checked (Option (Outcome B n)) := do
  match ← lookup reg .word c with
  | none => return none
  | some found =>
      let keys ← spell reg c found
      let mods ← modsOf reg e c
      return some ({ e with lastWord := some ⟨c, keys.length⟩ }, [.event (.sequence keys mods)])

/-- Cycles through at most `count` anagrams until one of them has a word. -/
def nextAnagram (reg : Registry B) : (count : Nat) → Chord B → Checked (Chord B)
  | 0, c => return c
  | count + 1, c => do
      let c ← cycleAnagram reg c
      if (← lookup reg .word c).isSome then return c else nextAnagram reg count c

/-- The chord of the last word after a cycle command. -/
def cycleChord (reg : Registry B) (what : Cycle) (c : Chord B) : Checked (Chord B) :=
  match what with
  | .anagram => do nextAnagram reg (← anagramCount reg c.mode) c
  | .capital => do cycleCapital reg c ((← lookup reg .word c).getD [])
  | .nospace => cycleNospace reg c

def cycleLastWord (reg : Registry B) (e : Engine B n) (what : Cycle) : Checked (Outcome B n) :=
  match e.lastWord with
  | none => return (e, [])
  | some last => do
      let erase := Report.event (Engine.eraseEvent last.sent)
      match ← sendWord? reg e (← cycleChord reg what last.chord) with
      | some sent => return (sent.1, erase :: sent.2)
      | none => return (e.forget, [erase])

/-- Of the orders only a cycle command has accesses. -/
def runCommand (reg : Registry B) (e : Engine B n) (command : Command) : Checked (Outcome B n) :=
  match command with
  | .cycle what => cycleLastWord reg e what
  | other => return e.runCommand reg other

def runKeys (reg : Registry B) (e : Engine B n) (keys : List Key) : Checked (Outcome B n) :=
  match Command.ofKeys? keys with
  | some command => runCommand reg e command
  | none => return (e, [])

variable {e : Engine B n} {c : Chord B}

theorem modsOf_eq (v : reg.Valid) (e : Engine B n) (c : Chord B) :
    modsOf reg e c = pure (e.modsOf reg c) := by
  rw [modsOf, modByte_eq v, pure_bind]
  rfl

theorem sendWord?_eq (v : reg.Valid) (e : Engine B n) (h : reg.isValidMode c.mode = true) :
    sendWord? reg e c = pure (e.sendWord? reg c) := by
  rw [sendWord?, Engine.sendWord?, lookup_eq v .word h, pure_bind]
  cases reg.lookup .word c with
  | none => rfl
  | some found =>
      dsimp only
      rw [spell_eq v, pure_bind, modsOf_eq v, pure_bind]

theorem nextAnagram_eq (v : reg.Valid) (count : Nat) (h : reg.isValidMode c.mode = true) :
    nextAnagram reg count c = pure (Engine.nextAnagram reg count c) := by
  induction count generalizing c with
  | zero => rfl
  | succ count ih =>
      have hcycled : reg.isValidMode (c.cycleAnagram reg).mode = true := h
      rw [nextAnagram, Engine.nextAnagram, cycleAnagram_eq v h, pure_bind,
        lookup_eq v .word hcycled, pure_bind]
      split
      · rfl
      · exact ih hcycled

theorem cycleChord_eq (v : reg.Valid) (what : Cycle) (h : reg.isValidMode c.mode = true) :
    cycleChord reg what c = pure (Engine.cycleChord reg what c) := by
  cases what with
  | anagram =>
      rw [cycleChord, anagramCount_eq h, pure_bind]
      exact nextAnagram_eq v (reg.anagramCount c.mode) h
  | capital =>
      rw [cycleChord, lookup_eq v .word h, pure_bind]
      exact cycleCapital_eq v c _
  | nospace => exact cycleNospace_eq v c

/-- The mode of an engine exists, and the last word belongs to it. -/
structure Placed (reg : Registry B) (e : Engine B n) : Prop where
  mode : reg.isValidMode e.mode = true
  word : ∀ last, e.lastWord = some last → last.chord.mode = e.mode

theorem cycleLastWord_eq (v : reg.Valid) (h : Placed reg e) (what : Cycle) :
    cycleLastWord reg e what = pure (e.cycleLastWord reg what) := by
  unfold cycleLastWord Engine.cycleLastWord
  cases hlast : e.lastWord with
  | none => rfl
  | some last =>
      have hvalid : reg.isValidMode last.chord.mode = true := (h.word last hlast).symm ▸ h.mode
      have hcycled : reg.isValidMode (Engine.cycleChord reg what last.chord).mode = true := by
        rw [Engine.mode_cycleChord]
        exact hvalid
      dsimp only
      rw [cycleChord_eq v what hvalid, pure_bind, sendWord?_eq v e hcycled, pure_bind]
      cases e.sendWord? reg (Engine.cycleChord reg what last.chord) with
      | none => rfl
      | some sent => rfl

theorem runCommand_eq (v : reg.Valid) (h : Placed reg e) (command : Command) :
    runCommand reg e command = pure (e.runCommand reg command) := by
  cases command with
  | cycle what => exact cycleLastWord_eq v h what
  | releaseAll => rfl
  | toggleSticky mods => rfl
  | setMode mode => rfl

theorem runKeys_eq (v : reg.Valid) (h : Placed reg e) (keys : List Key) :
    runKeys reg e keys = pure (e.runKeys reg keys) := by
  unfold runKeys Engine.runKeys
  cases Command.ofKeys? keys with
  | none => rfl
  | some command => exact runCommand_eq v h command

/-! ## Chords -/

/-- The switches of the modifiers that were taken out of a chord. -/
def modSwitches (reg : Registry B) (c : Chord B) : Checked (Pattern B) := do
  let m ← mode reg c.mode
  (List.range reg.modCount).foldlM
    (fun acc id => do
      if ← has c.mods id then return acc.union (← modChord m id) else return acc)
    Pattern.blank

/-- Lets the switches of a chord's modifiers join the next chord. -/
def reuseMods (reg : Registry B) (e : Engine B n) (c : Chord B) : Checked (Engine B n) := do
  let p ← modSwitches reg c
  let slots := Vector.ofFn fun i =>
    if p.has i then e.switches.slots[i].reuse else e.switches.slots[i]
  return { e with switches := { e.switches with slots } }

/-- The keys of a chord that are sent as they are. -/
def lookupKeys (reg : Registry B) (c : Chord B) : Checked (Option (List Key)) := do
  match ← lookup reg .plain c with
  | some keys => return some keys
  | none => lookup reg .expansion c

/-- A word if there is one. -/
def sendWordChord (reg : Registry B) (e : Engine B n) (c : Chord B) : Checked (Outcome B n) := do
  let c ← extractAnagram reg (← extractWord reg c)
  match ← sendWord? reg e c with
  | some sent => return (← reuseMods reg sent.1 c, sent.2)
  | none => return (e, [])

/-- A chord that is no command: a hold, keys, or a word. -/
def sendKeyChord (reg : Registry B) (e : Engine B n) (c : Chord B) : Checked (Outcome B n) := do
  let c ← extractPlain reg c
  let mods ← modsOf reg e c
  if c.isEmpty then return (← reuseMods reg e c, [.event (.hold [] mods)])
  else
    match ← lookupKeys reg c with
    | some keys => return ((← reuseMods reg e c).forget, [.event (.sequence keys mods)])
    | none => sendWordChord reg e c

/-- Acts on an assembled chord. -/
def dispatch (reg : Registry B) (e : Engine B n) (c : Chord B) : Checked (Outcome B n) := do
  if c.isEmpty then return (e, [])
  else
    match ← lookup reg .command c with
    | some keys => runKeys reg e keys
    | none => sendKeyChord reg e c

theorem modSwitches_eq (v : reg.Valid) (h : reg.isValidMode c.mode = true) :
    modSwitches reg c = pure (Switches.modSwitches reg c) := by
  obtain ⟨m, hmem, htotal, hmode⟩ := mode_eq h
  rw [modSwitches, Switches.modSwitches, htotal, hmode, pure_bind]
  dsimp only
  rw [List.foldl_filter]
  apply foldlM_eq
  intro acc id hid
  have hlt : id < reg.modCount := List.mem_range.1 hid
  rw [has_eq c.mods (v.lt_maxModifiers hlt), pure_bind, modChord_eq (v.lt_modChords hlt hmem),
    pure_bind]
  split <;> rfl

theorem reuseMods_eq (v : reg.Valid) (e : Engine B n) (h : reg.isValidMode c.mode = true) :
    reuseMods reg e c = pure (e.reuseMods reg c) := by
  rw [reuseMods, modSwitches_eq v h, pure_bind]
  rfl

theorem lookupKeys_eq (v : reg.Valid) (h : reg.isValidMode c.mode = true) :
    lookupKeys reg c = pure (Engine.lookupKeys reg c) := by
  rw [lookupKeys, Engine.lookupKeys, lookup_eq v .plain h, pure_bind]
  cases reg.lookup .plain c with
  | some keys => rfl
  | none => exact lookup_eq v .expansion h

theorem sendWordChord_eq (v : reg.Valid) (e : Engine B n) (h : reg.isValidMode c.mode = true) :
    sendWordChord reg e c = pure (e.sendWordChord reg c) := by
  have hword : reg.isValidMode (c.extractWord reg).mode = true := by
    rw [Chord.mode_extractWord]
    exact h
  have hanagram : reg.isValidMode ((c.extractWord reg).extractAnagram reg).mode = true := by
    rw [Chord.mode_extractAnagram]
    exact hword
  rw [sendWordChord, Engine.sendWordChord, extractWord_eq v h, pure_bind,
    extractAnagram_eq v hword, pure_bind, sendWord?_eq v e hanagram, pure_bind]
  cases e.sendWord? reg ((c.extractWord reg).extractAnagram reg) with
  | none => rfl
  | some sent =>
      dsimp only
      rw [reuseMods_eq v sent.1 hanagram, pure_bind]

theorem sendKeyChord_eq (v : reg.Valid) (e : Engine B n) (h : reg.isValidMode c.mode = true) :
    sendKeyChord reg e c = pure (e.sendKeyChord reg c) := by
  have hplain : reg.isValidMode (c.extractPlain reg).mode = true := by
    rw [Chord.mode_extractPlain]
    exact h
  rw [sendKeyChord, Engine.sendKeyChord, extractPlain_eq v h, pure_bind, modsOf_eq v, pure_bind,
    reuseMods_eq v e hplain, pure_bind, lookupKeys_eq v hplain, pure_bind]
  split
  · rfl
  · cases Engine.lookupKeys reg (c.extractPlain reg) with
    | some keys => rfl
    | none => exact sendWordChord_eq v e hplain

theorem dispatch_eq (v : reg.Valid) (h : Placed reg e) (same : c.mode = e.mode) :
    dispatch reg e c = pure (e.dispatch reg c) := by
  have hvalid : reg.isValidMode c.mode = true := same ▸ h.mode
  rw [dispatch, Engine.dispatch, lookup_eq v .command hvalid, pure_bind]
  split
  · rfl
  · cases reg.lookup .command c with
    | some keys => exact runKeys_eq v h keys
    | none => exact sendKeyChord_eq v e hvalid

/-! ## Ticks -/

/-- The pressed and the held switches as one pattern; the pressed ones are sent from then on. -/
def assemble (B : Nat) (s : Switches n) : Checked (Pattern B × Switches n) := do
  return (← s.joining.foldlM insert Pattern.blank, s.markSent)

/-- A chord for each switch that is down; the pressed ones are sent from then on. -/
def assembleSingles (B mode : Nat) (s : Switches n) :
    Checked (List (Chord B) × Switches n) := do
  let chords ← s.downSwitches.mapM fun i => do
    let bits ← insert Pattern.blank i
    return Chord.ofBits mode bits
  return (chords, s.markSent)

def sendChord (reg : Registry B) (e : Engine B n) : Checked (Outcome B n) := do
  let assembled ← assemble B e.switches
  dispatch reg { e with switches := assembled.2 } (Chord.ofBits e.mode assembled.1)

/-- Adds the keys and modifiers of one switch to those gathered before. -/
def gather (reg : Registry B) (acc : List Key × UInt8) (c : Chord B) :
    Checked (List Key × UInt8) := do
  let c ← extractPlain reg c
  let mods ← modByte reg c
  if c.isEmpty then return (acc.1, acc.2 ||| mods)
  else
    let found ← lookup reg .plain c
    return ((found.getD []).foldl addKey acc.1, acc.2 ||| mods)

/-- Holds the keys of all switches that are down, each looked up on its own. -/
def sendGaming (reg : Registry B) (e : Engine B n) : Checked (Outcome B n) := do
  let assembled ← assembleSingles B e.mode e.switches
  let gathered ← assembled.1.foldlM (gather reg) ([], e.sticky)
  return ({ e with switches := assembled.2 }, [.event (.hold gathered.1 gathered.2)])

/-- Every switch is reported on its own. -/
def isGaming (reg : Registry B) (e : Engine B n) : Checked Bool := do
  return (← mode reg e.mode).gaming

/-- Sends what is due to be pressed. -/
def pressPhase (reg : Registry B) (e : Engine B n) (now : Nat) (gaming : Bool) :
    Checked (Outcome B n) :=
  let due := e.switches.pressDue now gaming
  let e := { e with switches := due.2 }
  if due.1 then
    if gaming then sendGaming reg e else sendChord reg e
  else return (e, [])

/-- Samples the switches and reports what became ready. The releases have no accesses. -/
def tick (reg : Registry B) (e : Engine B n) (now : Nat) (down : Fin n → Bool) :
    Checked (Outcome B n) := do
  let gaming ← isGaming reg e
  let pressed ← pressPhase reg (e.sample now gaming down) now gaming
  let released := pressed.1.releasePhase now gaming
  return (released.1, pressed.2 ++ released.2)

/-- Of the inputs only a tick has accesses. -/
def step (reg : Registry B) (e : Engine B n) (i : Input n) : Checked (Outcome B n) :=
  match i with
  | .tick now down => tick reg e now down
  | other => return e.step reg other

def run (reg : Registry B) (e : Engine B n) : List (Input n) → Checked (Outcome B n)
  | [] => return (e, [])
  | i :: rest => do
      let first ← step reg e i
      let later ← run reg first.1 rest
      return (later.1, first.2 ++ later.2)

theorem lt_of_mem_map_val {is : List (Fin n)} {i : Nat} (h : i ∈ is.map Fin.val) : i < n := by
  obtain ⟨j, -, rfl⟩ := List.mem_map.1 h
  exact j.isLt

theorem assemble_eq (fits : n ≤ 8 * B) (s : Switches n) :
    assemble B s = pure (s.assemble B) := by
  have hinsert : s.joining.foldlM insert (Pattern.blank : Pattern B) =
      pure (Pattern.ofSwitches s.joining) := by
    apply foldlM_eq
    intro p i hi
    exact insert_eq p (Nat.lt_of_lt_of_le (lt_of_mem_map_val hi) fits)
  rw [assemble, hinsert, pure_bind]
  rfl

theorem exists_noSwitch_foldlM {is : List Nat} (h : ∃ i ∈ is, 8 * B ≤ i) (p : Pattern B) :
    ∃ j, is.foldlM insert p = throw (.noSwitch j) := by
  induction is generalizing p with
  | nil =>
      obtain ⟨i, hi, -⟩ := h
      exact absurd hi List.not_mem_nil
  | cons i is ih =>
      rw [List.foldlM_cons]
      by_cases hroom : i < 8 * B
      · rw [insert_eq p hroom, pure_bind]
        obtain ⟨k, hk, hle⟩ := h
        rcases List.mem_cons.1 hk with rfl | hk
        · exact absurd hroom (Nat.not_lt.2 hle)
        · exact ih ⟨k, hk, hle⟩ (p.insert i)
      · refine ⟨i, ?_⟩
        rw [insert, require, if_neg hroom]
        rfl

/-- The bound on the switches is needed: a chord that a switch without room joins is stopped. -/
theorem exists_noSwitch_assemble {s : Switches n} {i : Nat} (joins : i ∈ s.joining)
    (noRoom : 8 * B ≤ i) : ∃ j, assemble B s = throw (.noSwitch j) := by
  obtain ⟨j, hj⟩ := exists_noSwitch_foldlM ⟨i, joins, noRoom⟩ Pattern.blank
  refine ⟨j, ?_⟩
  rw [assemble, hj]
  rfl

theorem assembleSingles_eq (fits : n ≤ 8 * B) (mode : Nat) (s : Switches n) :
    assembleSingles B mode s = pure (s.assembleSingles B mode) := by
  have hchords : (s.downSwitches.mapM fun i => do
        let bits ← insert (Pattern.blank : Pattern B) i
        return Chord.ofBits mode bits) =
      pure (s.downSwitches.map fun i => (Chord.new B mode).insert i) := by
    apply mapM_eq
    intro i hi
    rw [insert_eq _ (Nat.lt_of_lt_of_le (lt_of_mem_map_val hi) fits), pure_bind]
    rfl
  rw [assembleSingles, hchords, pure_bind]
  rfl

theorem sendChord_eq (v : reg.Valid) (fits : n ≤ 8 * B) (h : Placed reg e) :
    sendChord reg e = pure (e.sendChord reg) := by
  rw [sendChord, assemble_eq fits, pure_bind]
  exact dispatch_eq v ⟨h.mode, h.word⟩ rfl

theorem gather_eq (v : reg.Valid) (acc : List Key × UInt8) (h : reg.isValidMode c.mode = true) :
    gather reg acc c = pure (Engine.gather reg acc c) := by
  have hplain : reg.isValidMode (c.extractPlain reg).mode = true := by
    rw [Chord.mode_extractPlain]
    exact h
  rw [gather, Engine.gather, extractPlain_eq v h, pure_bind, modByte_eq v, pure_bind,
    lookup_eq v .plain hplain, pure_bind]
  split <;> rfl

theorem sendGaming_eq (v : reg.Valid) (fits : n ≤ 8 * B) (h : Placed reg e) :
    sendGaming reg e = pure (e.sendGaming reg) := by
  have hgather : (e.switches.assembleSingles B e.mode).1.foldlM (gather reg) ([], e.sticky) =
      pure ((e.switches.assembleSingles B e.mode).1.foldl (Engine.gather reg)
        ([], e.sticky)) := by
    apply foldlM_eq
    intro acc c hc
    obtain ⟨i, -, rfl⟩ := List.mem_map.1 hc
    exact gather_eq v acc h.mode
  rw [sendGaming, assembleSingles_eq fits, pure_bind, hgather, pure_bind]
  rfl

theorem isGaming_eq (h : Placed reg e) : isGaming reg e = pure (e.isGaming reg) := by
  obtain ⟨m, -, htotal, hmode⟩ := mode_eq h.mode
  rw [isGaming, Engine.isGaming, htotal, hmode, pure_bind]

theorem pressPhase_eq (v : reg.Valid) (fits : n ≤ 8 * B) (h : Placed reg e) (now : Nat)
    (gaming : Bool) : pressPhase reg e now gaming = pure (e.pressPhase reg now gaming) := by
  have hdue : Placed reg { e with switches := (e.switches.pressDue now gaming).2 } :=
    ⟨h.mode, h.word⟩
  unfold pressPhase Engine.pressPhase
  dsimp only
  split
  · split
    · exact sendGaming_eq v fits hdue
    · exact sendChord_eq v fits hdue
  · rfl

theorem tick_eq (v : reg.Valid) (fits : n ≤ 8 * B) (h : Placed reg e) (now : Nat)
    (down : Fin n → Bool) : tick reg e now down = pure (e.tick reg now down) := by
  have hsampled : Placed reg (e.sample now (e.isGaming reg) down) := ⟨h.mode, h.word⟩
  rw [tick, isGaming_eq h, pure_bind, pressPhase_eq v fits hsampled, pure_bind]
  rfl

theorem step_eq (v : reg.Valid) (fits : n ≤ 8 * B) (h : Placed reg e) (i : Input n) :
    step reg e i = pure (e.step reg i) := by
  cases i with
  | tick now down => exact tick_eq v fits h now down
  | control m => rfl
  | apply settings => rfl

/-! ## Every step keeps the last word in the mode of the engine -/

theorem Placed.congr {e' : Engine B n} (h : Placed reg e) (mode : e'.mode = e.mode)
    (word : e'.lastWord = e.lastWord) : Placed reg e' := by
  constructor
  · rw [mode]
    exact h.mode
  · intro last hlast
    rw [mode]
    rw [word] at hlast
    exact h.word last hlast

theorem placed_of_none (mode : reg.isValidMode e.mode = true) (none : e.lastWord = none) :
    Placed reg e := by
  constructor
  · exact mode
  · intro last hlast
    rw [none] at hlast
    cases hlast

theorem placed_sendWord? (h : Placed reg e) (same : c.mode = e.mode) {o : Outcome B n}
    (sent : e.sendWord? reg c = some o) : Placed reg o.1 := by
  obtain ⟨found, -, rfl⟩ := Engine.sendWord?_eq_some_iff.1 sent
  constructor
  · exact h.mode
  · rintro last ⟨rfl⟩
    exact same

theorem placed_setMode (h : Placed reg e) (mode : Nat) : Placed reg (e.setMode reg mode).1 := by
  unfold Engine.setMode
  split
  · rename_i hvalid
    exact placed_of_none hvalid rfl
  · exact h

theorem placed_cycleLastWord (h : Placed reg e) (what : Cycle) :
    Placed reg (e.cycleLastWord reg what).1 := by
  unfold Engine.cycleLastWord
  cases hlast : e.lastWord with
  | none => exact h
  | some last =>
      dsimp only
      cases hsent : e.sendWord? reg (Engine.cycleChord reg what last.chord) with
      | none => exact placed_of_none h.mode rfl
      | some sent =>
          have hsame : (Engine.cycleChord reg what last.chord).mode = e.mode := by
            rw [Engine.mode_cycleChord]
            exact h.word last hlast
          exact (placed_sendWord? h hsame hsent).congr rfl rfl

theorem placed_runCommand (h : Placed reg e) (command : Command) :
    Placed reg (e.runCommand reg command).1 := by
  cases command with
  | cycle what => exact placed_cycleLastWord h what
  | releaseAll => exact placed_of_none h.mode rfl
  | toggleSticky mods => exact h.congr rfl rfl
  | setMode mode => exact placed_setMode h mode

theorem placed_of_dispatched (h : Placed reg e) (same : c.mode = e.mode) {o : Outcome B n}
    (d : Engine.Dispatched reg e c o) : Placed reg o.1 := by
  cases d with
  | blank => exact h
  | noOrder => exact h
  | order => exact placed_runCommand h _
  | mods => exact h.congr rfl rfl
  | keys => exact placed_of_none h.mode rfl
  | word _ _ _ found =>
      have hsame : (c.wordPart reg).mode = e.mode := by
        rw [Chord.mode_wordPart]
        exact same
      exact (placed_sendWord? h hsame found).congr rfl rfl
  | unmapped => exact h

theorem placed_step (h : Placed reg e) (i : Input n) : Placed reg (e.step reg i).1 := by
  refine Engine.step_keeps (P := Placed reg) ?_ ?_ ?_ h i
  · intro e e' h mode word _
    exact h.congr mode word
  · intro e mode h
    exact placed_setMode h mode
  · intro e bits o h d
    exact placed_of_dispatched h rfl d

theorem placed_fresh (v : reg.Valid) (settings : Settings) :
    Placed reg (Engine.fresh B n settings) := by
  refine placed_of_none ?_ rfl
  exact decide_eq_true (List.length_pos_iff.2 v.modes_ne_nil)

theorem run_eq (v : reg.Valid) (fits : n ≤ 8 * B) (h : Placed reg e) (inputs : List (Input n)) :
    run reg e inputs = pure (e.run reg inputs) := by
  induction inputs generalizing e with
  | nil => rfl
  | cons i rest ih =>
      rw [run, step_eq v fits h, pure_bind, ih (placed_step h i), pure_bind]
      rfl

/-- **A registry without defects never shows one.** Take an engine that was started on it, for
no more switches than a chord has room for. No run of that engine comes to an access where there
is nothing to be had: no mode, dictionary, sequence table or modifier chord is missing, no
modifier, switch or anagram number is too large for its set, and no anagram number wraps around
at zero. In the state that the run ends in, the mode exists, and the last word was sent in that
mode, as one of its anagrams. -/
theorem no_defect {e₀ : Engine B n} {settings : Settings}
    (h : Engine.start reg n settings = .ok e₀) (fits : n ≤ 8 * B) (inputs : List (Input n)) :
    run reg e₀ inputs = .ok (e₀.run reg inputs) ∧
      ∃ m, reg.modes[(e₀.run reg inputs).1.mode]? = some m ∧
        ∀ last, (e₀.run reg inputs).1.lastWord = some last →
          last.chord.mode = (e₀.run reg inputs).1.mode ∧
            last.chord.anagram < m.anagramCount := by
  obtain ⟨v, hfresh⟩ := Engine.start_eq_ok_iff.1 h
  have hstart : Placed reg e₀ := by
    rw [hfresh]
    exact placed_fresh v settings
  have hplaced : Placed reg (e₀.run reg inputs).1 :=
    Engine.run_invariant (p := Placed reg) (fun _ i he => placed_step he i) hstart inputs
  obtain ⟨m, -, htotal, -⟩ := mode_eq hplaced.mode
  have hmode : reg.modes[(e₀.run reg inputs).1.mode]? = some m := by
    rw [← Registry.mode?_of_isValidMode hplaced.mode]
    exact htotal
  refine ⟨run_eq v fits hstart inputs, m, hmode, ?_⟩
  intro last hlast
  have hsame := hplaced.word last hlast
  have hlt := (Engine.wordKept_run h inputs last hlast).anagram_lt
  rw [Registry.anagramCount, hsame, htotal] at hlt
  exact ⟨hsame, hlt⟩

/-- A word that is moved on to its second anagram. -/
theorem no_defect_twoAnagrams :
    Engine.start Engine.twoAnagrams 2 .usual = .ok (Engine.fresh 1 2 .usual) ∧ 2 ≤ 8 * 1 ∧
      run Engine.twoAnagrams (Engine.fresh 1 2 .usual) Engine.wordThenCycle =
        .ok ((Engine.fresh 1 2 .usual).run Engine.twoAnagrams Engine.wordThenCycle) ∧
      ∃ last, ((Engine.fresh 1 2 .usual).run Engine.twoAnagrams
          Engine.wordThenCycle).1.lastWord = some last ∧
        last.chord.anagram = 1 ∧ ∃ m ∈ Engine.twoAnagrams.modes,
          last.chord.anagram < m.anagramCount := by
  have hstart : Engine.start Engine.twoAnagrams 2 .usual = .ok (Engine.fresh 1 2 .usual) := rfl
  have hfits : 2 ≤ 8 * 1 := by decide
  have hword : (((Engine.fresh 1 2 .usual).run Engine.twoAnagrams
      Engine.wordThenCycle).1.lastWord.map fun last => last.chord.anagram) = some 1 := by
    decide +kernel
  obtain ⟨last, hlast, hanagram⟩ := Option.map_eq_some_iff.1 hword
  obtain ⟨hrun, m, hm, hlastWord⟩ := no_defect hstart hfits Engine.wordThenCycle
  exact ⟨hstart, hfits, hrun, last, hlast, hanagram, m, List.mem_of_getElem? hm,
    (hlastWord last hlast).2⟩

end Strict

end Chordboard
