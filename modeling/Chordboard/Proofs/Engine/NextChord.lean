import Chordboard.Proofs.Chord.Restoration
import Chordboard.Proofs.Engine.ChordDelivery

/-!
# Which switches may join the next chord

A chord ends as a command, as a hold, as keys, as a word, or as nothing (`Ending`), and that
settles what the engine does with it (`dispatch_eq_ending`). The switches of the chord have been
sent then. Those that were held stay held, and of a chord that was reported the switches of its
modifiers are held as well, so both may join the next chord (`statuses_after_chord`).

The engine goes through all modifiers that are set and looks at all switches that are down. It can
neither miss a switch of the chord nor touch another one, because every modifier that is set was
taken out of the chord and so lies within it (`madeUpOf_rest`).
-/

namespace Chordboard

variable {B n : Nat} {reg : Registry B}

/-! ## The ending of a chord -/

/-- What becomes of a chord. If something is reported for it, there is what is left of the chord
once its modifiers are taken out. -/
inductive Ending (B : Nat) where
  | command (keys : List Key)
  /-- Plain modifiers alone. -/
  | hold (rest : Chord B)
  /-- Plain keys or an expansion. -/
  | keys (rest : Chord B) (found : List Key)
  | word (rest : Chord B) (found : List Key)
  | unmapped

namespace Ending

/-- What is left of a chord that was reported. -/
def rest? : Ending B → Option (Chord B)
  | .command _ => none
  | .hold rest => some rest
  | .keys rest _ => some rest
  | .word rest _ => some rest
  | .unmapped => none

/-- The modifiers that were taken out of a chord that was reported. -/
def taken (ending : Ending B) : List Nat :=
  match ending.rest? with
  | some rest => rest.mods.taken
  | none => []

/-- What is reported for a chord that is no command. -/
def event? (reg : Registry B) (sticky : UInt8) : Ending B → Option Event
  | .command _ => none
  | .hold rest => some (.hold [] (rest.modByte reg ||| sticky))
  | .keys rest found => some (.sequence found (rest.modByte reg ||| sticky))
  | .word rest found => some (.sequence (rest.spell reg found) (rest.modByte reg ||| sticky))
  | .unmapped => none

end Ending

/-- How a chord ends, by the lookups in their order. -/
def Chord.ending (reg : Registry B) (c : Chord B) : Ending B :=
  match reg.lookup .command c with
  | some keys => .command keys
  | none =>
      if (c.extractPlain reg).isEmpty then .hold (c.extractPlain reg)
      else
        match Engine.lookupKeys reg (c.extractPlain reg) with
        | some keys => .keys (c.extractPlain reg) keys
        | none =>
            match reg.lookup .word (c.wordPart reg) with
            | some found => .word (c.wordPart reg) found
            | none => .unmapped

namespace Engine

variable {e : Engine B n} {c : Chord B}

/-- The engine acts on a chord by its ending. -/
theorem dispatch_eq_ending (some : c.isEmpty = false) :
    e.dispatch reg c =
      match c.ending reg with
      | .command keys => e.runKeys reg keys
      | .hold rest => (e.reuseMods reg rest, [.event (.hold [] (e.modsOf reg rest))])
      | .keys rest found =>
          ((e.reuseMods reg rest).forget, [.event (.sequence found (e.modsOf reg rest))])
      | .word rest found =>
          ({ e with lastWord := .some ⟨rest, (rest.spell reg found).length⟩ }.reuseMods reg rest,
            [.event (.sequence (rest.spell reg found) (e.modsOf reg rest))])
      | .unmapped => (e, []) := by
  unfold dispatch Chord.ending
  rw [some, if_neg Bool.false_ne_true]
  cases reg.lookup .command c with
  | some keys => rfl
  | none =>
      dsimp only
      unfold sendKeyChord
      dsimp only
      cases (c.extractPlain reg).isEmpty with
      | true => rfl
      | false =>
          rw [if_neg Bool.false_ne_true, if_neg Bool.false_ne_true]
          cases lookupKeys reg (c.extractPlain reg) with
          | some keys => rfl
          | none =>
              dsimp only
              rw [sendWordChord_extractPlain]
              unfold sendWord?
              cases reg.lookup .word (c.wordPart reg) <;> rfl

/-- A chord that was reported lets the switches of its modifiers join the next one. Otherwise the
switches are left alone. -/
theorem switches_dispatch (some : c.isEmpty = false) :
    (e.dispatch reg c).1.switches =
      match (c.ending reg).rest? with
      | .some rest => e.switches.reuseMods reg rest
      | none => e.switches := by
  rw [dispatch_eq_ending some]
  cases c.ending reg with
  | command keys =>
      show (e.runKeys reg keys).1.switches = e.switches
      unfold runKeys
      split
      · exact (frame_runCommand _).1
      · rfl
  | hold rest => rfl
  | keys rest found => rfl
  | word rest found => rfl
  | unmapped => rfl

theorem reports_dispatch (some : c.isEmpty = false) {event : Event}
    (h : (c.ending reg).event? reg e.sticky = .some event) :
    (e.dispatch reg c).2 = [.event event] := by
  rw [dispatch_eq_ending some]
  cases hending : c.ending reg with
  | command keys =>
      rw [hending] at h
      cases h
  | hold rest =>
      rw [hending] at h
      cases h
      rfl
  | keys rest found =>
      rw [hending] at h
      cases h
      rfl
  | word rest found =>
      rw [hending] at h
      cases h
      rfl
  | unmapped =>
      rw [hending] at h
      cases h

end Engine

/-! ## The modifiers that were taken out -/

namespace Chord

variable {c rest : Chord B} {mode : Mode B} {number : Nat} {p : Pattern B}

theorem ending_rest?_cases (h : (c.ending reg).rest? = some rest) :
    rest = c.extractPlain reg ∨ rest = c.wordPart reg := by
  unfold ending at h
  split at h
  · cases h
  · split at h
    · exact Or.inl (Option.some.inj h).symm
    · split at h
      · exact Or.inl (Option.some.inj h).symm
      · split at h
        · exact Or.inr (Option.some.inj h).symm
        · cases h

/-- A chord is made up of what is left of it and of what was taken out. -/
theorem madeUpOf_rest (v : reg.Valid) (hmode : reg.mode? number = some mode)
    (h : ((ofBits number p).ending reg).rest? = some rest) : p.MadeUpOf (rest.parts mode) := by
  have hfresh : reg.mode? (ofBits number p).mode = some mode := hmode
  have hstart : p.MadeUpOf ((ofBits number p).parts mode) := by
    rw [parts_ofBits]
    exact Pattern.madeUpOf_single p
  have hplain := madeUpOf_extractPlain v hfresh hstart
  rcases ending_rest?_cases h with rfl | rfl
  · exact hplain
  · have hmodePlain : reg.mode? ((ofBits number p).extractPlain reg).mode = some mode := by
      rw [mode_extractPlain]
      exact hfresh
    have hmodeWord : reg.mode? (((ofBits number p).extractPlain reg).extractWord reg).mode =
        some mode := by
      rw [mode_extractWord]
      exact hmodePlain
    have hnone : (((ofBits number p).extractPlain reg).extractWord reg).anagramsTaken = 0 := by
      rw [anagramsTaken_extractWord, anagramsTaken_extractPlain]
      rfl
    exact madeUpOf_extractAnagram v hmodeWord hnone (madeUpOf_extractWord v hmodePlain hplain)

/-- Every modifier that the plain step has set is a plain one. -/
theorem plain_of_has_extractPlain {id : Nat}
    (h : ((ofBits number p).extractPlain reg).mods.has id = true) :
    ∃ m ∈ reg.plainMods, m.id = id := by
  refine Classical.byContradiction fun hnone => ?_
  rw [has_extractPlain_of_ne fun m hm hid => hnone ⟨m, hm, hid⟩] at h
  cases (ModFlags.has_empty id).symm.trans h

/-- Every modifier that was taken out is a plain or a word modifier. -/
theorem plain_or_word_of_rest (v : reg.Valid)
    (h : ((ofBits number p).ending reg).rest? = some rest) {id : Nat}
    (hid : rest.mods.has id = true) : (∃ m ∈ reg.plainMods, m.id = id) ∨ id ∈ reg.wordMods := by
  rcases ending_rest?_cases h with rfl | rfl
  · exact Or.inl (plain_of_has_extractPlain hid)
  · obtain ⟨mode, hmode⟩ := v.exists_mode ((ofBits number p).extractPlain reg).mode
    rw [wordPart, mods_extractAnagram] at hid
    rcases extractWord_cases hmode with hsame | ⟨word, hword, -, htaken⟩
    · rw [hsame] at hid
      exact Or.inl (plain_of_has_extractPlain hid)
    · by_cases hne : word = id
      · exact Or.inr (hne ▸ hword)
      · rw [htaken, has_extract_of_ne hne] at hid
        exact Or.inl (plain_of_has_extractPlain hid)

end Chord

namespace Ending

variable {mode : Mode B} {number : Nat} {bits : Pattern B} {id : Nat}

theorem exists_rest_of_mem_taken {ending : Ending B} (h : id ∈ ending.taken) :
    ∃ rest, ending.rest? = some rest ∧ rest.mods.has id = true := by
  unfold taken at h
  split at h
  · rename_i rest hrest
    exact ⟨rest, hrest, ModFlags.mem_taken.1 h⟩
  · exact absurd h List.not_mem_nil

theorem plain_or_word_of_mem_taken (v : reg.Valid)
    (h : id ∈ ((Chord.ofBits number bits).ending reg).taken) :
    (∃ m ∈ reg.plainMods, m.id = id) ∨ id ∈ reg.wordMods := by
  obtain ⟨rest, hrest, hid⟩ := exists_rest_of_mem_taken h
  exact Chord.plain_or_word_of_rest v hrest hid

theorem contains_of_mem_taken (v : reg.Valid) (hmode : reg.mode? number = some mode)
    (h : id ∈ ((Chord.ofBits number bits).ending reg).taken) :
    bits.contains (mode.modChord id) = true := by
  obtain ⟨rest, hrest, hid⟩ := exists_rest_of_mem_taken h
  refine Pattern.contains_iff.2 fun i hi => ?_
  refine ((Chord.madeUpOf_rest v hmode hrest).has_iff i).2 ⟨mode.modChord id, ?_, hi⟩
  exact List.mem_cons_of_mem _
    (List.mem_append_left _ (List.mem_map_of_mem (ModFlags.mem_taken.2 hid)))

/-- The switches that the engine lets join the next chord. -/
def reused (reg : Registry B) (ending : Ending B) : Pattern B :=
  match ending.rest? with
  | some rest => Switches.modSwitches reg rest
  | none => Pattern.blank

/-- They are those of the modifiers that were taken out. -/
theorem has_reused_iff (v : reg.Valid) (hmode : reg.mode? number = some mode) {i : Nat} :
    (((Chord.ofBits number bits).ending reg).reused reg).has i = true ↔
      ∃ id ∈ ((Chord.ofBits number bits).ending reg).taken, (mode.modChord id).has i = true := by
  have htaken : ∀ id ∈ ((Chord.ofBits number bits).ending reg).taken, id < reg.modCount := by
    intro id hid
    rcases plain_or_word_of_mem_taken v hid with ⟨m, hm, rfl⟩ | hword
    · exact v.plainMod_lt m hm
    · exact v.wordMod_lt id hword
  unfold reused
  unfold taken at htaken ⊢
  cases hrest : ((Chord.ofBits number bits).ending reg).rest? with
  | none => simp
  | some rest =>
      have hrestMode : reg.mode? rest.mode = some mode := by
        rcases Chord.ending_rest?_cases hrest with rfl | rfl
        · rw [Chord.mode_extractPlain]
          exact hmode
        · rw [Chord.mode_wordPart]
          exact hmode
      rw [hrest] at htaken
      dsimp only at htaken ⊢
      rw [Switches.modSwitches, hrestMode]
      dsimp only
      rw [Pattern.has_foldl_union_iff]
      simp only [Pattern.has_blank, Bool.false_eq_true, false_or, List.mem_filter, List.mem_range,
        ModFlags.mem_taken]
      constructor
      · rintro ⟨id, ⟨-, hid⟩, hi⟩
        exact ⟨id, hid, hi⟩
      · rintro ⟨id, hid, hi⟩
        exact ⟨id, ⟨htaken id (ModFlags.mem_taken.2 hid), hid⟩, hi⟩

end Ending

/-! ## The switches after a chord -/

namespace Slot

/-- A switch of a chord is held afterwards if it was before, and else it is sent. -/
theorem status_markSent_of_joins {s : Slot} (h : s.status = .pressed ∨ s.status = .held) :
    s.markSent.status = if s.status = .held then .held else .alreadySent := by
  unfold markSent
  rcases h with h | h <;> simp [h]

theorem markSent_of_not_pressed {s : Slot} (h : s.status ≠ .pressed) : s.markSent = s := if_neg h

theorem status_reuse_of_isDown {s : Slot} (h : s.isDown = true) : s.reuse.status = .held := by
  rw [reuse, if_pos h]

end Slot

namespace Tick

variable {t : Tick B n} {bits : Pattern B}

/-- The pressed switches of a chord are sent, and the switches of its modifiers are reused. -/
theorem slot_after_of_chord (h : t.chord? reg = some bits) (some : bits.isBlank = false)
    (i : Fin n) :
    (t.after reg).switches.slots[i] =
      if (((Chord.ofBits t.before.mode bits).ending reg).reused reg).has i then
        (t.sampled reg).slots[i].markSent.reuse
      else (t.sampled reg).slots[i].markSent := by
  obtain ⟨calm, -, -⟩ := chord?_eq_some_iff.1 h
  have hafter : (t.after reg).switches =
      (((t.before.sample t.now (t.gaming reg) t.down).pressPhase reg t.now
        (t.gaming reg)).1.switches.releaseDue t.now (t.gaming reg)).2 := rfl
  have hsome : (Chord.ofBits t.before.mode bits).isEmpty = false := some
  rw [pressPhase_of_chord h, calm, Engine.switches_dispatch hsome] at hafter
  have hmark : (t.sending reg).switches.slots[i] = (t.sampled reg).slots[i].markSent := by
    rw [sending_of_calm calm (Option.isSome_iff_exists.2 ⟨bits, h⟩)]
    simp [Switches.markSent]
  rw [hafter, ← hmark, Ending.reused]
  cases ((Chord.ofBits t.before.mode bits).ending reg).rest? with
  | none =>
      rw [Pattern.has_blank, if_neg Bool.false_ne_true]
      rfl
  | some rest =>
      show ((t.sending reg).switches.reuseMods reg rest).slots[i] = _
      simp [Switches.reuseMods]

/-- A switch outside of a chord is left alone: as the modifiers that were taken out lie within the
chord, none of them has it. -/
theorem status_outside_chord (v : reg.Valid) (hn : n ≤ 8 * B) (chord : t.chord? reg = some bits)
    (some : bits.isBlank = false) {i : Fin n} (outside : bits.has i = false) :
    (t.after reg).switches.slots[i].status = (t.sampled reg).slots[i].status := by
  obtain ⟨mode, hmode⟩ := v.exists_mode t.before.mode
  have hkept : (((Chord.ofBits t.before.mode bits).ending reg).reused reg).has i = false := by
    rw [← Bool.not_eq_true, Ending.has_reused_iff v hmode]
    rintro ⟨id, hid, hi⟩
    have hin := Pattern.contains_iff.1 (Ending.contains_of_mem_taken v hmode hid) i hi
    rw [outside] at hin
    cases hin
  have hpressed : (t.sampled reg).slots[i].status ≠ .pressed := by
    intro hpressed
    rw [(has_chord_iff hn chord i).2 (Or.inl hpressed)] at outside
    cases outside
  rw [slot_after_of_chord chord some i, hkept, if_neg Bool.false_ne_true,
    Slot.markSent_of_not_pressed hpressed]

/-- A switch of a chord is held afterwards if it was before, or if it belongs to a modifier that
was taken out. -/
theorem status_in_chord {mode : Mode B} (v : reg.Valid) (hn : n ≤ 8 * B)
    (hmode : reg.mode? t.before.mode = some mode) (chord : t.chord? reg = some bits)
    (some : bits.isBlank = false) {i : Fin n} (inside : bits.has i = true) :
    (t.after reg).switches.slots[i].status =
      if (t.sampled reg).slots[i].status = .held ∨
          ∃ id ∈ ((Chord.ofBits t.before.mode bits).ending reg).taken,
            (mode.modChord id).has i = true
        then .held else .alreadySent := by
  have hreused : (((Chord.ofBits t.before.mode bits).ending reg).reused reg).has i = true ↔
      ∃ id ∈ ((Chord.ofBits t.before.mode bits).ending reg).taken, (mode.modChord id).has i = true :=
    Ending.has_reused_iff v hmode
  have hjoins := (has_chord_iff hn chord i).1 inside
  rw [slot_after_of_chord chord some i]
  by_cases hpart : (((Chord.ofBits t.before.mode bits).ending reg).reused reg).has i = true
  · have hdown : (t.sampled reg).slots[i].markSent.isDown = true := by
      rw [Slot.isDown_markSent, Slot.isDown]
      rcases hjoins with h | h <;> rw [h] <;> rfl
    rw [if_pos hpart, Slot.status_reuse_of_isDown hdown, if_pos (Or.inr (hreused.1 hpart))]
  · have hnone := mt hreused.2 hpart
    rw [if_neg hpart, Slot.status_markSent_of_joins hjoins]
    simp only [hnone, or_false]

/-- **Which switches may join the next chord.** When a chord is assembled, in any state of an
engine, no switch is pressed after the tick. A switch of the chord is held then if it was held
when the chord was assembled or if it belongs to a modifier that was taken out of the chord, which
is a plain or a word modifier that lies within the chord; else it is sent. Modifiers are taken out
of a chord that is reported, as a hold, as keys or as a word, and not for a command or for a chord
that stands for nothing. Every other switch is as the sample has left it. -/
theorem statuses_after_chord (valid : reg.validate = .ok ()) (hn : n ≤ 8 * B)
    (chord : t.chord? reg = some bits) (some : bits.isBlank = false) :
    ∃ mode, reg.mode? t.before.mode = .some mode ∧
      (∀ event,
        ((Chord.ofBits t.before.mode bits).ending reg).event? reg t.before.sticky = .some event →
          [.event event] <+: t.reports reg) ∧
      (∀ id ∈ ((Chord.ofBits t.before.mode bits).ending reg).taken,
        ((∃ m ∈ reg.plainMods, m.id = id) ∨ id ∈ reg.wordMods) ∧
          bits.contains (mode.modChord id) = true) ∧
      ∀ i : Fin n,
        (t.after reg).switches.slots[i].status ≠ .pressed ∧
        (bits.has i = true → (t.after reg).switches.slots[i].status =
          if (t.sampled reg).slots[i].status = .held ∨
              ∃ id ∈ ((Chord.ofBits t.before.mode bits).ending reg).taken,
                (mode.modChord id).has i = true
            then .held else .alreadySent) ∧
        (bits.has i = false →
          (t.after reg).switches.slots[i].status = (t.sampled reg).slots[i].status) ∧
        ((t.sampled reg).slots[i].status = .notPressed →
          (t.after reg).switches.slots[i].status = .notPressed) := by
  have v := Registry.validate_eq_ok_iff.1 valid
  obtain ⟨mode, hmode⟩ := v.exists_mode t.before.mode
  obtain ⟨calm, -, -⟩ := chord?_eq_some_iff.1 chord
  refine ⟨mode, hmode, ?_, ?_, ?_⟩
  · intro event hevent
    have hsome : (Chord.ofBits t.before.mode bits).isEmpty = false := some
    have hreports : ((t.sending reg).dispatch reg (Chord.ofBits t.before.mode bits)).2 =
        [.event event] := Engine.reports_dispatch hsome hevent
    rw [← hreports]
    exact reports_of_chord chord
  · intro id hid
    exact ⟨Ending.plain_or_word_of_mem_taken v hid, Ending.contains_of_mem_taken v hmode hid⟩
  · intro i
    refine ⟨?_, status_in_chord v hn hmode chord some, status_outside_chord v hn chord some, ?_⟩
    · intro hpressed
      have hnone := ((after_pressed_iff calm).1 hpressed).1
      rw [chord] at hnone
      cases hnone
    · intro hup
      have hout : bits.has i = false := by
        rw [← Bool.not_eq_true, has_chord_iff hn chord i, hup]
        rintro (h | h) <;> cases h
      rw [status_outside_chord v hn chord some hout, hup]

/-- Switch 2 has a word, switch 0 is the shift key, and switch 1 leaves out the space. -/
def shiftedWord : Registry 1 where
  dictionaries := [⟨[[], [0x00, 4]], [[], [4]], .codes⟩]
  modes := [⟨⟨[], [], [], [0]⟩, [1, 2, Pattern.blank], Pattern.blank, [], false⟩]
  plainMods := [⟨0, Modifier.leftShift⟩]
  wordMods := [1, 2]
  nospace := 1
  capital := 2
  double := none
  shorten := none
  modCount := 3

/-- The first three of four switches are pressed together. -/
def shiftedWordTick : Tick 1 4 where
  before := ((Engine.fresh 1 4 .usual).run shiftedWord
    [.tick 0 (·.val < 3), .tick 10000 (·.val < 3)]).1
  now := 40000
  down := (·.val < 3)

/-- The word is sent shifted and without a space. Of its switches those of the two modifiers may
join the next chord. -/
theorem statuses_after_shiftedWord :
    shiftedWord.validate = .ok () ∧ shiftedWordTick.chord? shiftedWord = some 7 ∧
      [.event (.sequence [Key.plain 4] Modifier.leftShift)] <+:
        shiftedWordTick.reports shiftedWord ∧
      (shiftedWordTick.after shiftedWord).switches.slots[(1 : Fin 4)].status = .held ∧
      (shiftedWordTick.after shiftedWord).switches.slots[(2 : Fin 4)].status = .alreadySent ∧
      (shiftedWordTick.after shiftedWord).switches.slots[(3 : Fin 4)].status = .notPressed := by
  have valid : shiftedWord.validate = .ok () := rfl
  have chord : shiftedWordTick.chord? shiftedWord = some 7 := by decide +kernel
  obtain ⟨mode, hmode, hevent, -, hslots⟩ :=
    statuses_after_chord valid (by decide) chord (by decide)
  have hfirst : mode = ⟨⟨[], [], [], [0]⟩, [1, 2, Pattern.blank], Pattern.blank, [], false⟩ := by
    have hnumber : shiftedWordTick.before.mode = 0 := by decide +kernel
    rw [hnumber] at hmode
    exact (Option.some.inj hmode).symm
  subst hfirst
  refine ⟨valid, chord, hevent _ (by decide +kernel), ?_, ?_, ?_⟩
  · exact ((hslots 1).2.1 (by decide)).trans (by decide +kernel)
  · exact ((hslots 2).2.1 (by decide)).trans (by decide +kernel)
  · exact (hslots 3).2.2.2 (by decide +kernel)

end Tick

end Chordboard
