import Chordboard.Proofs.Engine.WordReplacement

/-!
# The last word is erased exactly

The engine knows how many keys it sent for the last word, and erases as many. That count is
right as long as nothing else was tapped since, and it is kept by every way of spelling a word:
shortened, doubled, capitalized, with or without its space, and cut where there is no more room
for keys. So the number of keys to erase can be read off the reports as well: it is that of the
sequence that was reported last (`erases_last_sequence`).
-/

namespace Chordboard

variable {B n : Nat} {reg : Registry B}

/-! ## The reports of a command -/

/-- After the reports of a command a tick reports nothing but a release that is due. -/
theorem Tick.reports_of_command {t : Tick B n} {command : Command}
    (order : t.command? reg = some command) :
    ∃ released, t.reports reg = ((t.sending reg).runCommand reg command).2 ++ released ∧
      (released = [] ∨ released = [.event (t.after reg).releaseEvent]) := by
  obtain ⟨bits, hchord, hdispatch⟩ := Tick.dispatch_of_command order
  have hpress := Tick.pressPhase_of_chord hchord
  rw [hdispatch] at hpress
  have hreports : t.reports reg =
      ((t.sending reg).runCommand reg command).2 ++
        (((t.sending reg).runCommand reg command).1.releasePhase t.now (t.gaming reg)).2 := by
    rw [← hpress]
    rfl
  have hsticky : (t.after reg).releaseEvent =
      ((t.sending reg).runCommand reg command).1.releaseEvent := by
    rw [← hpress]
    rfl
  refine ⟨_, hreports, ?_⟩
  rw [hsticky, Engine.releasePhase]
  dsimp only
  split
  · exact Or.inr rfl
  · exact Or.inl rfl

namespace Engine

/-- **Backspaces erase exactly the last word.** In every state that an engine reaches, a last
word is the last sequence that was reported, and it has as many keys as the engine remembers.
A cycle command that a tick gives there reports two events and no more: as many backspaces as
that sequence has keys, none of them with modifiers, and the word of the changed chord. -/
theorem erases_last_sequence {e₀ : Engine B n} {settings : Settings}
    (h : start reg n settings = .ok e₀) (inputs : List (Input n)) {last : LastWord B}
    (word : (e₀.run reg inputs).1.lastWord = some last) :
    ∃ keys, last.chord.word? reg = some keys ∧
      (lastSequence? (e₀.run reg inputs).2).map Prod.fst = some keys ∧
      last.sent = keys.length ∧ keys.length ≤ maxKeys ∧
      ∀ (t : Tick B n) (what : Cycle), t.before = (e₀.run reg inputs).1 →
        t.command? reg = some (.cycle what) →
          ∃ new mods released, (cycleChord reg what last.chord).word? reg = some new ∧
            ((t.sending reg).runCommand reg (.cycle what)).2 =
              [.event (.sequence (List.replicate keys.length backspaceKey) 0),
                .event (.sequence new mods)] ∧
            t.reports reg =
              ((t.sending reg).runCommand reg (.cycle what)).2 ++ released ∧
            (released = [] ∨ released = [.event (t.after reg).releaseEvent]) := by
  obtain ⟨v, hfresh⟩ := start_eq_ok_iff.1 h
  have hremembered : Remembered reg (e₀.run reg inputs).2 (e₀.run reg inputs).1 := by
    rw [hfresh]
    exact remembered_run settings inputs
  obtain ⟨keys, mods, front, back, hkeys, hsent, hsplit, hback⟩ := hremembered last word
  have hle := Chord.length_word?_le hkeys
  refine ⟨keys, hkeys, ?_, hsent, hle, ?_⟩
  · rw [hsplit, lastSequence?_of_silent front keys mods hback, Option.map_some]
  · intro t what before order
    have hlast : (t.sending reg).lastWord = some last := by
      rw [Tick.sending, before]
      exact word
    obtain ⟨_, hfound, hcycle⟩ :=
      cycleLastWord_eq v hlast (wordKept_run h inputs last word) what
    obtain ⟨new, hnew, houtcome⟩ := word?_of_sendWord? hfound
    obtain ⟨-, hlist⟩ := Prod.mk.inj houtcome
    have hreports : ((t.sending reg).runCommand reg (.cycle what)).2 =
        [.event (.sequence (List.replicate keys.length backspaceKey) 0),
          .event (.sequence new ((t.sending reg).modsOf reg (cycleChord reg what last.chord)))] := by
      rw [runCommand, hcycle, hlist, hsent, eraseEvent_of_le hle]
    obtain ⟨released, hsplit, hreleased⟩ := Tick.reports_of_command order
    exact ⟨new, _, released, hnew, hreports, hsplit, hreleased⟩

/-- A word whose two keys are erased for the spacing to change. -/
theorem erases_respaced :
    start spacedWord 3 .usual = .ok (fresh 1 3 .usual) ∧
      respaceTick.before = ((fresh 1 3 .usual).run spacedWord wordThenSticky).1 ∧
      respaceTick.command? spacedWord = some (.cycle .nospace) ∧
      ∃ last, ((fresh 1 3 .usual).run spacedWord wordThenSticky).1.lastWord = some last ∧
        ∃ keys new mods,
          (lastSequence? ((fresh 1 3 .usual).run spacedWord wordThenSticky).2).map Prod.fst =
            some keys ∧
          last.sent = keys.length ∧
          ((respaceTick.sending spacedWord).runCommand spacedWord (.cycle .nospace)).2 =
            [.event (.sequence (List.replicate keys.length backspaceKey) 0),
              .event (.sequence new mods)] := by
  have hstart : start spacedWord 3 .usual = .ok (fresh 1 3 .usual) := rfl
  have hcommand : respaceTick.command? spacedWord = some (.cycle .nospace) := by decide +kernel
  have hword : ((fresh 1 3 .usual).run spacedWord wordThenSticky).1.lastWord.isSome := by
    decide +kernel
  obtain ⟨last, hlast⟩ := Option.isSome_iff_exists.1 hword
  obtain ⟨keys, -, htapped, hsent, -, hcycle⟩ := erases_last_sequence hstart wordThenSticky hlast
  obtain ⟨new, mods, -, -, hreports, -, -⟩ := hcycle respaceTick .nospace rfl hcommand
  exact ⟨hstart, rfl, hcommand, last, hlast, keys, new, mods, htapped, hsent, hreports⟩

end Engine

end Chordboard
