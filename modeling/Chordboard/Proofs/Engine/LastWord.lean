import Chordboard.Proofs.Chord.Anagrams
import Chordboard.Proofs.Engine.Ticks

/-!
# The last word

An engine that was started on a registry without defects never remembers a
word that it could not send again (`WordKept`). So a cycle command, which
erases the last word first, always has another one to put in its place.
-/

namespace Chordboard

variable {B n : Nat} {reg : Registry B}

namespace Engine

/-- The chord of the last word, if there is one, has the property. -/
def WordHas (P : Chord B → Prop) (e : Engine B n) : Prop :=
  ∀ last, e.lastWord = some last → P last.chord

/-- The last word, if there is one, can be sent again. -/
def WordKept (reg : Registry B) (e : Engine B n) : Prop :=
  ∀ last, e.lastWord = some last → Resendable reg last.chord

/-- A word is sent and remembered wherever it is found. -/
theorem exists_sendWord? {c : Chord B} (h : (reg.lookup .word c).isSome) (e : Engine B n) :
    ∃ keys, e.sendWord? reg c =
      some ({ e with lastWord := some ⟨c, keys.length⟩ },
        [.event (.sequence keys (e.modsOf reg c))]) := by
  obtain ⟨found, hfound⟩ := Option.isSome_iff_exists.1 h
  exact ⟨c.spell reg found, sendWord?_eq_some_iff.2 ⟨found, hfound, rfl⟩⟩

/-! ## Cycle commands -/

/-- **Erased and replaced.** A cycle command that finds a word erases it and sends
the word of the changed chord. -/
theorem cycleLastWord_eq (v : reg.Valid) {e : Engine B n} {last : LastWord B}
    (hlast : e.lastWord = some last) (h : Resendable reg last.chord) (what : Cycle) :
    ∃ keys, e.sendWord? reg (cycleChord reg what last.chord) =
        some ({ e with lastWord := some ⟨cycleChord reg what last.chord, keys.length⟩ },
          [.event (.sequence keys (e.modsOf reg (cycleChord reg what last.chord)))]) ∧
      e.cycleLastWord reg what =
        ({ e with lastWord := some ⟨cycleChord reg what last.chord, keys.length⟩ },
          [.event (eraseEvent last.sent),
            .event (.sequence keys (e.modsOf reg (cycleChord reg what last.chord)))]) := by
  obtain ⟨keys, hsent⟩ := exists_sendWord? (h.cycleChord v what).word e
  refine ⟨keys, hsent, ?_⟩
  rw [cycleLastWord, hlast]
  dsimp only
  rw [hsent]

/-! ## What the last word always has -/

section invariant

variable {P : Chord B → Prop} {e : Engine B n}

theorem wordHas_of_none (h : e.lastWord = none) : WordHas P e := by
  intro last hlast
  rw [h] at hlast
  cases hlast

theorem WordHas.congr {e' : Engine B n} (h : WordHas P e) (same : e'.lastWord = e.lastWord) :
    WordHas P e' := by
  intro last hlast
  rw [same] at hlast
  exact h last hlast

theorem wordHas_sendWord? {c : Chord B} {sent : Outcome B n} (hc : P c)
    (h : e.sendWord? reg c = some sent) : WordHas P sent.1 := by
  obtain ⟨found, -, rfl⟩ := sendWord?_eq_some_iff.1 h
  rintro last ⟨rfl⟩
  exact hc

theorem wordHas_setMode (h : WordHas P e) (mode : Nat) : WordHas P (e.setMode reg mode).1 := by
  unfold setMode
  split
  · exact wordHas_of_none rfl
  · exact h

theorem wordHas_runCommand (cycled : ∀ c what, P c → P (cycleChord reg what c))
    (h : WordHas P e) (command : Command) : WordHas P (e.runCommand reg command).1 := by
  cases command with
  | cycle what =>
      rw [runCommand, cycleLastWord]
      split
      · exact h
      · rename_i last hlast
        dsimp only
        split
        · rename_i sent hsent
          exact (wordHas_sendWord? (cycled last.chord what (h last hlast)) hsent).congr rfl
        · exact wordHas_of_none rfl
  | releaseAll => exact wordHas_of_none rfl
  | toggleSticky mods => exact h
  | setMode mode => exact wordHas_setMode h mode

theorem Dispatched.wordHas (cycled : ∀ c what, P c → P (cycleChord reg what c))
    (h : WordHas P e) {c : Chord B}
    (new : (reg.lookup .word (c.wordPart reg)).isSome → P (c.wordPart reg)) {o : Outcome B n}
    (d : Dispatched reg e c o) : WordHas P o.1 := by
  cases d with
  | blank => exact h
  | noOrder => exact h
  | order => exact wordHas_runCommand cycled h _
  | mods => exact h
  | keys => exact wordHas_of_none rfl
  | word _ _ _ found =>
      obtain ⟨keys, hfound, -⟩ := sendWord?_eq_some_iff.1 found
      have hnew := new (Option.isSome_iff_exists.2 ⟨keys, hfound⟩)
      exact (wordHas_sendWord? hnew found).congr rfl
  | unmapped => exact h

/-- What a chord has when it is first sent as a word, and what every cycle command keeps, the
chord of the last word has in every state. -/
theorem wordHas_run
    (new : ∀ (mode : Nat) (bits : Pattern B),
      (reg.lookup .word ((Chord.ofBits mode bits).wordPart reg)).isSome →
        P ((Chord.ofBits mode bits).wordPart reg))
    (cycled : ∀ c what, P c → P (cycleChord reg what c)) (settings : Settings)
    (inputs : List (Input n)) : WordHas P ((fresh B n settings).run reg inputs).1 := by
  have hstep : ∀ (e : Engine B n) (i : Input n), WordHas P e → WordHas P (e.step reg i).1 := by
    intro e i h
    refine step_keeps (P := WordHas P) ?_ ?_ ?_ h i
    · intro e e' h _ word _
      exact h.congr word
    · intro e mode h
      exact wordHas_setMode h mode
    · intro e bits o h d
      exact d.wordHas cycled h (new e.mode bits)
  have hfresh : WordHas P (fresh B n settings) := wordHas_of_none rfl
  exact run_invariant hstep hfresh inputs

end invariant

theorem resendable_wordPart {mode : Nat} {bits : Pattern B}
    (h : (reg.lookup .word ((Chord.ofBits mode bits).wordPart reg)).isSome) :
    Resendable reg ((Chord.ofBits mode bits).wordPart reg) := by
  refine ⟨h, ?_⟩
  rw [Chord.mode_wordPart]
  exact Chord.anagram_wordPart_lt (Chord.anagram_ofBits mode bits)

theorem wordKept_run {e : Engine B n} {settings : Settings} (h : start reg n settings = .ok e)
    (inputs : List (Input n)) : WordKept reg (e.run reg inputs).1 := by
  obtain ⟨v, rfl⟩ := start_eq_ok_iff.1 h
  exact wordHas_run (fun _ _ => resendable_wordPart) (fun _ what hc => hc.cycleChord v what)
    settings inputs

end Engine

/-! ## Cycle commands in a run -/

/-- The order of a tick is carried out by the engine that assembled its chord. -/
theorem Tick.dispatch_of_command {t : Tick B n} {command : Command}
    (h : t.command? reg = some command) :
    ∃ bits, t.chord? reg = some bits ∧
      (t.sending reg).dispatch reg (Chord.ofBits t.before.mode bits) =
        (t.sending reg).runCommand reg command := by
  unfold command? at h
  cases hchord : t.chord? reg with
  | none => rw [hchord] at h; cases h
  | some bits =>
      rw [hchord] at h
      dsimp only at h
      split at h
      · cases h
      · rename_i hblank
        obtain ⟨keys, hkeys, horder⟩ := Option.bind_eq_some_iff.1 h
        refine ⟨bits, rfl, ?_⟩
        rw [Engine.dispatch, if_neg hblank, hkeys]
        dsimp only
        rw [Engine.runKeys, horder]

namespace Engine

/-- A tick whose chord gives a cycle command is left with the word that the command
leaves, and its reports begin with those of the command. -/
theorem outcome_of_cycle {t : Tick B n} {what : Cycle}
    (hcommand : t.command? reg = some (.cycle what)) :
    (t.after reg).lastWord = ((t.sending reg).cycleLastWord reg what).1.lastWord ∧
      ((t.sending reg).cycleLastWord reg what).2 <+: t.reports reg := by
  obtain ⟨bits, hchord, hdispatch⟩ := Tick.dispatch_of_command hcommand
  rw [runCommand] at hdispatch
  rw [← hdispatch]
  refine ⟨?_, Tick.reports_of_chord hchord⟩
  -- The rest of the tick does not touch the last word.
  rcases Tick.after_cases reg t with ⟨hnone, -⟩ | ⟨bits', s, hsome, hafter⟩
  · rw [hchord] at hnone
    cases hnone
  · rw [hchord] at hsome
    cases hsome
    rw [hafter]

/-- A cycle command at a tick has no word to replace, or it replaces it. -/
theorem cycle_at_tick (v : reg.Valid) {t : Tick B n} (hkept : WordKept reg t.before)
    {what : Cycle} (hcommand : t.command? reg = some (.cycle what)) :
    (t.before.lastWord = none ∧ (t.after reg).lastWord = none) ∨
      ∃ last keys mods rest, t.before.lastWord = some last ∧
        (t.after reg).lastWord.isSome ∧
        t.reports reg =
          .event (eraseEvent last.sent) :: .event (.sequence keys mods) :: rest := by
  obtain ⟨hafter, rest, hreports⟩ := outcome_of_cycle hcommand
  cases hlast : t.before.lastWord with
  | none =>
      refine Or.inl ⟨rfl, ?_⟩
      have hsending : (t.sending reg).lastWord = none := hlast
      rw [hafter, cycleLastWord, hsending]
      exact hsending
  | some last =>
      refine Or.inr ⟨last, ?_⟩
      have hsending : (t.sending reg).lastWord = some last := hlast
      obtain ⟨keys, -, heq⟩ := cycleLastWord_eq v hsending (hkept last hlast) what
      rw [heq] at hafter hreports
      refine ⟨keys, (t.sending reg).modsOf reg (cycleChord reg what last.chord), rest, rfl,
        ?_, hreports.symm⟩
      rw [hafter]
      rfl

/-- **The last word is never lost.** In every state that an engine reaches, the
last word can be looked up, and any cycle command issued there would send a word
in its place and remember that. At a tick of the run whose chord gives a cycle
command, either there was no word to begin with, or the reports begin with the
erasure and the new word. -/
theorem lastWord_never_lost {e₀ : Engine B n} {settings : Settings}
    (h : start reg n settings = .ok e₀) (inputs : List (Input n)) :
    (∀ last, (e₀.run reg inputs).1.lastWord = some last →
      (reg.lookup .word last.chord).isSome ∧
        ∀ what, ∃ sent,
          (e₀.run reg inputs).1.sendWord? reg (cycleChord reg what last.chord) = some sent ∧
            (e₀.run reg inputs).1.runCommand reg (.cycle what) =
              (sent.1, .event (eraseEvent last.sent) :: sent.2) ∧
            sent.1.lastWord.isSome) ∧
      ∀ t ∈ e₀.ticks reg inputs, ∀ what, t.command? reg = some (.cycle what) →
        (t.before.lastWord = none ∧ (t.after reg).lastWord = none) ∨
          ∃ last keys mods rest, t.before.lastWord = some last ∧
            (t.after reg).lastWord.isSome ∧
            t.reports reg =
              .event (eraseEvent last.sent) :: .event (.sequence keys mods) :: rest := by
  obtain ⟨v, -⟩ := start_eq_ok_iff.1 h
  constructor
  · intro last hlast
    have hresend := wordKept_run h inputs last hlast
    refine ⟨hresend.word, fun what => ?_⟩
    obtain ⟨keys, hsent, heq⟩ := cycleLastWord_eq v hlast hresend what
    exact ⟨_, hsent, heq, rfl⟩
  · intro t ht what hcommand
    obtain ⟨front, back, hsplit⟩ := List.append_of_mem ht
    obtain ⟨earlier, later, -, -, hbefore, -⟩ := exists_inputs_of_ticks hsplit
    have hkept : WordKept reg t.before := by
      rw [← hbefore]
      exact wordKept_run h earlier
    exact cycle_at_tick v hkept hcommand

/-- A registry for two switches. Switch 0 is a word with two anagrams, switch 1 the
command to cycle through them. -/
def twoAnagrams : Registry 1 where
  dictionaries := [
    ⟨[[], [0x00, 1, 0x11, 1]], [[], [4, 5]], .codes⟩,
    ⟨[[], [0x00, 2]], [[], [Command.cycleAnagramCode]], .codes⟩]
  modes := [⟨⟨[], [], [1], [0]⟩, [Pattern.blank, Pattern.blank], 4, [0, 4], false⟩]
  plainMods := []
  wordMods := [0, 1]
  nospace := 0
  capital := 1
  double := none
  shorten := none
  modCount := 2

/-- Switch 0 is pressed and released, then switch 1 is pressed. -/
def wordThenCycle : List (Input 2) :=
  [.tick 0 (·.val == 0), .tick 10000 (·.val == 0), .tick 40000 (·.val == 0),
    .tick 50000 fun _ => false, .tick 60000 fun _ => false, .tick 90000 fun _ => false,
    .tick 100000 (·.val == 1), .tick 110000 (·.val == 1), .tick 140000 (·.val == 1)]

/-- The tick at which the command is given. -/
def cycleTick : Tick 1 2 where
  before := ((fresh 1 2 .usual).run twoAnagrams (wordThenCycle.take 8)).1
  now := 140000
  down := (·.val == 1)

theorem lastWord_kept_twoAnagrams :
    start twoAnagrams 2 .usual = .ok (fresh 1 2 .usual) ∧
      cycleTick ∈ (fresh 1 2 .usual).ticks twoAnagrams wordThenCycle ∧
      cycleTick.command? twoAnagrams = some (.cycle .anagram) ∧
      (cycleTick.after twoAnagrams).lastWord.isSome := by
  have hstart : start twoAnagrams 2 .usual = .ok (fresh 1 2 .usual) := rfl
  have hmem : cycleTick ∈ (fresh 1 2 .usual).ticks twoAnagrams wordThenCycle :=
    List.mem_of_getElem? (i := 8) rfl
  have hcommand : cycleTick.command? twoAnagrams = some (.cycle .anagram) := by decide +kernel
  refine ⟨hstart, hmem, hcommand, ?_⟩
  rcases (lastWord_never_lost hstart wordThenCycle).2 cycleTick hmem .anagram hcommand with
    ⟨hnone, -⟩ | ⟨_, _, _, _, -, hsome, -⟩
  · have hword : cycleTick.before.lastWord.isSome = true := by decide +kernel
    rw [hnone] at hword
    cases hword
  · exact hsome

end Engine

end Chordboard
