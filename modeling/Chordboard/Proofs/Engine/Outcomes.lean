import Chordboard.Engine.Tick

/-!
# What a chord comes to

`Dispatched` lists the seven ends that an assembled chord can find, each with
the lookups that lead there. Properties of `dispatch` are case analyses over
it: what becomes of the last word, of the switches, of the settings.
-/

namespace Chordboard

variable {B n : Nat}

/-- What is left of a chord for a word once its modifiers and its anagram are
taken out. -/
def Chord.wordPart (reg : Registry B) (c : Chord B) : Chord B :=
  ((c.extractPlain reg).extractWord reg).extractAnagram reg

@[simp] theorem Chord.mode_wordPart (reg : Registry B) (c : Chord B) :
    (c.wordPart reg).mode = c.mode := by
  simp [wordPart]

namespace Engine

/-- The ends that a chord can find. -/
inductive Dispatched (reg : Registry B) (e : Engine B n) (c : Chord B) : Outcome B n → Prop where
  | blank (empty : c.isEmpty = true) : Dispatched reg e c (e, [])
  /-- A command entry whose keys give no order. -/
  | noOrder {keys : List Key} (some : c.isEmpty = false)
      (found : reg.lookup .command c = .some keys) (order : Command.ofKeys? keys = none) :
      Dispatched reg e c (e, [])
  | order {keys : List Key} {command : Command} (some : c.isEmpty = false)
      (found : reg.lookup .command c = .some keys)
      (order : Command.ofKeys? keys = .some command) :
      Dispatched reg e c (e.runCommand reg command)
  /-- Plain modifiers alone. -/
  | mods (some : c.isEmpty = false) (noCommand : reg.lookup .command c = none)
      (empty : (c.extractPlain reg).isEmpty = true) :
      Dispatched reg e c (e.reuseMods reg (c.extractPlain reg),
        [.event (.hold [] (e.modsOf reg (c.extractPlain reg)))])
  | keys {keys : List Key} (noCommand : reg.lookup .command c = none)
      (rest : (c.extractPlain reg).isEmpty = false)
      (found : lookupKeys reg (c.extractPlain reg) = .some keys) :
      Dispatched reg e c ((e.reuseMods reg (c.extractPlain reg)).forget,
        [.event (.sequence keys (e.modsOf reg (c.extractPlain reg)))])
  | word {sent : Outcome B n} (noCommand : reg.lookup .command c = none)
      (rest : (c.extractPlain reg).isEmpty = false)
      (noKeys : lookupKeys reg (c.extractPlain reg) = none)
      (found : e.sendWord? reg (c.wordPart reg) = .some sent) :
      Dispatched reg e c (sent.1.reuseMods reg (c.wordPart reg), sent.2)
  /-- A chord that stands for nothing. -/
  | unmapped (noCommand : reg.lookup .command c = none)
      (rest : (c.extractPlain reg).isEmpty = false)
      (noKeys : lookupKeys reg (c.extractPlain reg) = none)
      (noWord : e.sendWord? reg (c.wordPart reg) = none) :
      Dispatched reg e c (e, [])

theorem sendWordChord_extractPlain (reg : Registry B) (e : Engine B n) (c : Chord B) :
    e.sendWordChord reg (c.extractPlain reg) =
      match e.sendWord? reg (c.wordPart reg) with
      | some sent => (sent.1.reuseMods reg (c.wordPart reg), sent.2)
      | none => (e, []) := rfl

theorem dispatched_dispatch (reg : Registry B) (e : Engine B n) (c : Chord B) :
    Dispatched reg e c (e.dispatch reg c) := by
  -- The cases follow the order of the lookups.
  unfold dispatch
  by_cases empty : c.isEmpty = true
  · rw [if_pos empty]
    exact .blank empty
  rw [if_neg empty]
  have some : c.isEmpty = false := by simpa using empty
  cases command : reg.lookup .command c with
  | some keys =>
      dsimp only
      unfold runKeys
      cases order : Command.ofKeys? keys with
      | none => exact .noOrder some command order
      | some o => exact .order some command order
  | none =>
      dsimp only
      unfold sendKeyChord
      dsimp only
      by_cases bare : (c.extractPlain reg).isEmpty = true
      · rw [if_pos bare]
        exact .mods some command bare
      rw [if_neg bare]
      have rest : (c.extractPlain reg).isEmpty = false := by simpa using bare
      cases plain : lookupKeys reg (c.extractPlain reg) with
      | some keys => exact .keys command rest plain
      | none =>
          dsimp only
          rw [sendWordChord_extractPlain]
          cases sent : e.sendWord? reg (c.wordPart reg) with
          | some o => exact .word command rest plain sent
          | none => exact .unmapped command rest plain sent

/-! ## What a chord leaves alone -/

section frame

variable {reg : Registry B} {e : Engine B n}

theorem frame_sendWord? {c : Chord B} {o : Outcome B n} (h : e.sendWord? reg c = some o) :
    o.1.switches = e.switches ∧ o.1.settings = e.settings := by
  obtain ⟨found, -, rfl⟩ := sendWord?_eq_some_iff.1 h
  exact ⟨rfl, rfl⟩

theorem frame_setMode (mode : Nat) :
    (e.setMode reg mode).1.switches = e.switches ∧
      (e.setMode reg mode).1.settings = e.settings := by
  unfold setMode
  split <;> exact ⟨rfl, rfl⟩

theorem frame_control (m : ControlMessage) :
    (e.control reg m).1.1.switches = e.switches ∧
      (e.control reg m).1.1.settings = e.settings := by
  cases m with
  | setMode mode => exact frame_setMode mode
  | exit => exact ⟨rfl, rfl⟩

/-- New settings change no slot but the delay of its timer. -/
theorem slot_applySettings (settings : Settings) (i : Fin n) :
    (e.applySettings settings).switches.slots[i] =
      { e.switches.slots[i] with timer := e.switches.slots[i].timer.setDelay settings.debounce } := by
  simp [applySettings, Switches.applySettings]

theorem status_applySettings (settings : Settings) (i : Fin n) :
    (e.applySettings settings).switches.slots[i].status = e.switches.slots[i].status := by
  rw [slot_applySettings]

/-- Commands do not touch the switches. -/
theorem frame_runCommand (command : Command) :
    (e.runCommand reg command).1.switches = e.switches ∧
      (e.runCommand reg command).1.settings = e.settings := by
  cases command with
  | cycle what =>
      rw [runCommand, cycleLastWord]
      split
      · exact ⟨rfl, rfl⟩
      · dsimp only
        split
        · rename_i sent h
          obtain ⟨hswitches, hsettings⟩ := frame_sendWord? h
          exact ⟨hswitches, hsettings⟩
        · exact ⟨rfl, rfl⟩
  | releaseAll => exact ⟨rfl, rfl⟩
  | toggleSticky mods => exact ⟨rfl, rfl⟩
  | setMode mode => exact frame_setMode mode

/-- All that a chord does to the switches is to let those of its modifiers join
the next one. -/
theorem Dispatched.switches {c : Chord B} {o : Outcome B n} (h : Dispatched reg e c o) :
    o.1.switches = e.switches ∨ ∃ c', o.1.switches = e.switches.reuseMods reg c' := by
  cases h with
  | blank => exact Or.inl rfl
  | noOrder => exact Or.inl rfl
  | order => exact Or.inl (frame_runCommand _).1
  | mods => exact Or.inr ⟨_, rfl⟩
  | keys => exact Or.inr ⟨_, rfl⟩
  | word _ _ _ found =>
      refine Or.inr ⟨c.wordPart reg, ?_⟩
      rw [reuseMods, (frame_sendWord? found).1]
  | unmapped => exact Or.inl rfl

theorem Dispatched.settings {c : Chord B} {o : Outcome B n} (h : Dispatched reg e c o) :
    o.1.settings = e.settings := by
  cases h with
  | blank => rfl
  | noOrder => rfl
  | order => exact (frame_runCommand _).2
  | mods => rfl
  | keys => rfl
  | word _ _ _ found => exact (frame_sendWord? found).2
  | unmapped => rfl

end frame

end Engine

end Chordboard
