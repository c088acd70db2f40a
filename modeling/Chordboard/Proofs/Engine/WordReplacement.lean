import Chordboard.Proofs.Delivery.Ledger
import Chordboard.Proofs.Engine.SentWords

/-!
# The last word is replaced

A cycle command reports two events: one that erases the last word, and one that sends the
word in its place. The engine has reported nothing that taps a key since the word that it
replaces. So the transport receives all three events one after the other, as far as there was
room for them: a report that the queue gives up is one of more than it has room for, and a
release takes their place (`replacement_delivered`).

The engine does not learn of that. It erases a word that was given up, and it sends the new
word even if the old one could not be erased (`replaced_without_erasure`).
-/

namespace Chordboard

variable {B n capacity : Nat} {reg : Registry B}

namespace Engine

variable {e : Engine B n}

/-! ## A cycle command and its delivery -/

theorem eraseEvent_of_le {sent : Nat} (h : sent ≤ maxKeys) :
    eraseEvent sent = .sequence (List.replicate sent backspaceKey) 0 := by
  rw [eraseEvent, Nat.min_eq_left h]

/-- The reports of a cycle command erase the last word and send that of the changed chord. -/
theorem reports_of_cycle (v : reg.Valid) {t : Tick B n} (kept : WordKept reg t.before)
    {what : Cycle} (order : t.command? reg = some (.cycle what)) {last : LastWord B}
    (word : t.before.lastWord = some last) :
    ∃ keys mods rest, (cycleChord reg what last.chord).word? reg = some keys ∧
      t.reports reg =
        .event (eraseEvent last.sent) :: .event (.sequence keys mods) :: rest := by
  obtain ⟨-, rest, hreports⟩ := outcome_of_cycle order
  have hsending : (t.sending reg).lastWord = some last := word
  obtain ⟨_, hsent, heq⟩ := cycleLastWord_eq v hsending (kept last word) what
  obtain ⟨keys, hkeys, houtcome⟩ := word?_of_sendWord? hsent
  obtain ⟨-, hlist⟩ := Prod.mk.inj houtcome
  rw [heq, hlist] at hreports
  exact ⟨keys, _, rest, hkeys, hreports.symm⟩

/-- In a run the last word stands somewhere before the command, and nothing was tapped in
between. -/
theorem reports_at_cycle {e₀ : Engine B n} {settings : Settings}
    (h : start reg n settings = .ok e₀) {earlier : List (Input n)} {t : Tick B n}
    (found : (e₀.run reg earlier).1 = t.before) {what : Cycle}
    (order : t.command? reg = some (.cycle what)) {last : LastWord B}
    (word : t.before.lastWord = some last) :
    ∃ old oldMods new newMods front back rest,
      last.chord.word? reg = some old ∧ (cycleChord reg what last.chord).word? reg = some new ∧
      (e₀.run reg earlier).2 = front ++ .event (.sequence old oldMods) :: back ∧
      (∀ r ∈ back, r.Silent) ∧
      t.reports reg = .event (.sequence (List.replicate old.length backspaceKey) 0) ::
        .event (.sequence new newMods) :: rest := by
  obtain ⟨v, hfresh⟩ := start_eq_ok_iff.1 h
  have hkept : WordKept reg t.before := by
    rw [← found]
    exact wordKept_run h earlier
  have hremembered : Remembered reg (e₀.run reg earlier).2 t.before := by
    rw [← found, hfresh]
    exact remembered_run settings earlier
  obtain ⟨old, oldMods, front, back, hold, hsent, hbefore, hback⟩ := hremembered last word
  obtain ⟨new, newMods, rest, hnew, hreports⟩ := reports_of_cycle v hkept order word
  rw [hsent, eraseEvent_of_le (Chord.length_word?_le hold)] at hreports
  exact ⟨old, oldMods, new, newMods, front, back, rest, hold, hnew, hbefore, hback, hreports⟩

end Engine

/-- A parcel that stands for nothing that taps a key taps nothing. -/
theorem Parcel.sequence?_event {p : Parcel capacity} (h : ∀ r ∈ p.reports, r.Silent) :
    p.event.sequence? = none := by
  cases p with
  | kept e =>
      obtain ⟨e', he, hsilent⟩ := h (.event e) List.mem_cons_self
      rw [Report.event.inj he]
      exact hsilent
  | lost rs why => rfl

namespace Engine

/-- **The last word is erased and replaced.** Take any run with a tick whose chord gives a
cycle command for a last word, and any traffic of the reports of that run, or of the first
ones of them. The command reports an event that erases the old word, one backspace for each
of its keys, and the new word.

* If the transport receives the new word, then the last event before it is the erasure, or a
  release in the place of reports that the queue had no room for, the erasure among them.
* If it receives the erasure, then the last event that tapped anything is the old word, or
  nothing was tapped since a release in the place of reports that the queue had no room for,
  the old word among them. -/
theorem replacement_delivered {e₀ : Engine B n} {settings : Settings}
    (h : start reg n settings = .ok e₀) {earlier later : List (Input n)} {t : Tick B n}
    (found : (e₀.run reg earlier).1 = t.before) {what : Cycle}
    (order : t.command? reg = some (.cycle what)) {last : LastWord B}
    (word : t.before.lastWord = some last) (room : 0 < capacity) {traffic : List Traffic}
    (reported : traffic.filterMap Traffic.report? <+:
      (e₀.run reg (earlier ++ .tick t.now t.down :: later)).2) :
    ∃ old oldMods new newMods erase rest,
      last.chord.word? reg = some old ∧ (cycleChord reg what last.chord).word? reg = some new ∧
      erase = .sequence (List.replicate old.length backspaceKey) 0 ∧
      t.reports reg = .event erase :: .event (.sequence new newMods) :: rest ∧
      ((Ledger.blank capacity).run traffic).received.map Parcel.event =
        ((Delivery.idle capacity).run traffic).received ∧
      (∀ front e, ((Ledger.blank capacity).run traffic).Receives
          ((e₀.run reg earlier).2.length + 1) front e →
        e = .sequence new newMods ∧ ∃ rest q, front = rest ++ [q] ∧
          (q = .kept erase ∨ q.Overran erase)) ∧
      ∀ front e, ((Ledger.blank capacity).run traffic).Receives
          (e₀.run reg earlier).2.length front e →
        e = erase ∧ ∃ rest q between, front = rest ++ q :: between ∧
          (q = .kept (.sequence old oldMods) ∨ q.Overran (.sequence old oldMods)) ∧
          ∀ p ∈ between, p.event.sequence? = none := by
  obtain ⟨old, oldMods, new, newMods, front, back, rest, hold, hnew, hbefore, hback, hreports⟩ :=
    reports_at_cycle h found order word
  -- The ledger goes by the reports of the run, cut at the command.
  have hledger : ((Ledger.blank capacity).run traffic).reports <+:
      (e₀.run reg earlier).2 ++ (t.reports reg ++ ((t.after reg).run reg later).2) := by
    rw [run_append, found] at reported
    rw [Ledger.reports_run]
    exact reported
  rw [hreports, List.cons_append, List.cons_append] at hledger
  refine ⟨old, oldMods, new, newMods, _, rest, hold, hnew, rfl, hreports, ?_, ?_, ?_⟩
  · exact congrArg Delivery.received (Ledger.delivery_run room (Ledger.blank capacity) traffic)
  · intro front' e hreceives
    exact hreceives.right_after hledger
  · intro front' e hreceives
    rw [hbefore] at hledger hreceives
    have huncleared : .releaseAll ∉ back := fun h => Report.not_silent_releaseAll (hback _ h)
    obtain ⟨he, rest', q, between, rfl, hq, hbetween⟩ := hreceives.preceded hledger huncleared
    refine ⟨he, rest', q, between, rfl, hq, fun p hp => ?_⟩
    refine Parcel.sequence?_event fun r hr => hback r ?_
    exact hbetween.subset (List.mem_flatMap.2 ⟨p, hp, hr⟩)

end Engine

/-- The transport takes the first `prompt` events as they are reported, and the others when
all reports are made. -/
def Traffic.stalling (prompt : Nat) (rs : List Report) : List Traffic :=
  (rs.take prompt).flatMap (fun r => [.report r, .receive]) ++
    ((rs.drop prompt).map .report ++ List.replicate rs.length .receive)

namespace Engine

/-- A registry for three switches. Switch 0 is the word "a", switch 1 the command to change
the spacing, and switch 2 the command that makes shift sticky. -/
def spacedWord : Registry 1 where
  dictionaries := [
    ⟨[[], [0x00, 1]], [[], [4]], .codes⟩,
    ⟨[[], [0x00, 2], [0x00, 4]],
      [[], [Command.cycleNospaceCode], [Command.toggleStickyCode, Modifier.leftShift]], .codes⟩]
  modes := [⟨⟨[], [], [1], [0]⟩, [Pattern.blank, Pattern.blank], Pattern.blank, [], false⟩]
  plainMods := []
  wordMods := [0, 1]
  nospace := 0
  capital := 1
  double := none
  shorten := none
  modCount := 2

/-- Switch 0 is pressed and released, then switch 2 is pressed twice. -/
def wordThenSticky : List (Input 3) :=
  [.tick 0 (· == 0), .tick 10000 (· == 0), .tick 40000 (· == 0),
    .tick 50000 fun _ => false, .tick 60000 fun _ => false, .tick 90000 fun _ => false,
    .tick 100000 (· == 2), .tick 110000 (· == 2), .tick 140000 (· == 2),
    .tick 150000 fun _ => false, .tick 160000 fun _ => false, .tick 190000 fun _ => false,
    .tick 200000 (· == 2), .tick 210000 (· == 2), .tick 240000 (· == 2),
    .tick 250000 (· != 0), .tick 260000 (· != 0)]

/-- Switch 1 was pressed too, and its command is due. -/
def respaceTick : Tick 1 3 where
  before := ((fresh 1 3 .usual).run spacedWord wordThenSticky).1
  now := 290000
  down := (· != 0)

/-- The word with its space, and without. -/
def spaced : Event := .sequence [Key.plain 4, Chord.spaceKey] 0
def unspaced : Event := .sequence [Key.plain 4] 0

/-- The events of the run, those of the command at the end. -/
def respaceEvents : List Event :=
  [spaced, .release, .hold [] Modifier.leftShift, .hold [] Modifier.leftShift, .release,
    eraseEvent 2, unspaced]

theorem reports_respaced :
    ((fresh 1 3 .usual).run spacedWord
        (wordThenSticky ++ [.tick respaceTick.now respaceTick.down])).2 =
      respaceEvents.map .event := by
  decide +kernel

theorem replacement_of_prompt_transport :
    start spacedWord 3 .usual = .ok (fresh 1 3 .usual) ∧
      respaceTick.command? spacedWord = some (.cycle .nospace) ∧
      respaceTick.before.lastWord.isSome ∧
      ∃ front rest q erase,
        ((Ledger.blank 4).run (Traffic.stalling 7 (respaceEvents.map .event))).Receives 6 front
          unspaced ∧
        front = rest ++ [q] ∧ (q = .kept erase ∨ q.Overran erase) := by
  have hstart : start spacedWord 3 .usual = .ok (fresh 1 3 .usual) := rfl
  have hcommand : respaceTick.command? spacedWord = some (.cycle .nospace) := by decide +kernel
  have hword : respaceTick.before.lastWord.isSome := by decide +kernel
  have hreceives : ((Ledger.blank 4).run
      (Traffic.stalling 7 (respaceEvents.map .event))).Receives 6
        ((respaceEvents.take 6).map .kept) unspaced := ⟨[], by decide +kernel, rfl⟩
  obtain ⟨last, hlast⟩ := Option.isSome_iff_exists.1 hword
  have reported : (Traffic.stalling 7 (respaceEvents.map .event)).filterMap Traffic.report? <+:
      ((fresh 1 3 .usual).run spacedWord
        (wordThenSticky ++ [.tick respaceTick.now respaceTick.down])).2 := by
    rw [reports_respaced]
    decide
  have hearlier : ((fresh 1 3 .usual).run spacedWord wordThenSticky).2.length = 5 := by
    decide +kernel
  have room : 0 < 4 := by decide
  obtain ⟨_, _, _, _, erase, _, -, -, -, -, -, hreplaced, -⟩ :=
    replacement_delivered hstart rfl hcommand hlast room reported
  rw [hearlier] at hreplaced
  obtain ⟨-, rest, q, hfront, hq⟩ := hreplaced _ _ hreceives
  exact ⟨hstart, hcommand, hword, _, rest, q, erase, hreceives, hfront, hq⟩

/-- **Replaced without erasure.** The transport takes the word and then stalls. The queue is
full when the command comes: it gives up the erasure, and has room for the new word. If the
transport stalls from the start, it is the old word that is given up and then erased. -/
theorem replaced_without_erasure :
    start spacedWord 3 .usual = .ok (fresh 1 3 .usual) ∧
      respaceTick.command? spacedWord = some (.cycle .nospace) ∧
      ((fresh 1 3 .usual).run spacedWord
          (wordThenSticky ++ [.tick respaceTick.now respaceTick.down])).2 =
        respaceEvents.map .event ∧
      (∀ prompt ∈ [0, 1], (Traffic.stalling prompt (respaceEvents.map .event)).filterMap
        Traffic.report? = respaceEvents.map .event) ∧
      ((Delivery.idle 4).run (Traffic.stalling 1 (respaceEvents.map .event))).received =
        [spaced, .release, unspaced] ∧
      ((Delivery.idle 4).run (Traffic.stalling 0 (respaceEvents.map .event))).received =
        [.release, eraseEvent 2, unspaced] := by
  have hcommand : respaceTick.command? spacedWord = some (.cycle .nospace) := by decide +kernel
  exact ⟨rfl, hcommand, reports_respaced, by decide, by decide, by decide⟩

end Engine

end Chordboard
