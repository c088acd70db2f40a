import Chordboard.Proofs.Engine.WordReplacement

/-!
# Sticky modifiers

Sticky modifiers are to be down in every report. Each of the places that make an event adds
them on its own, so the proof follows the ends of a chord, the gaming modes, and the releases.
One place leaves them out: a cycle command erases the last word with no modifiers at all
(`erased_without_sticky`). Every other event has them (`sticky_in_reports`).
-/

namespace Chordboard

variable {B n : Nat} {reg : Registry B}

/-- What the event taps or keeps down, it does with all of these modifiers. -/
def Event.Carries (mods : UInt8) : Event → Prop
  | .sequence _ own => own &&& mods = mods
  | .hold _ own => own &&& mods = mods
  | .release => True

/-- The order that a chord gives. -/
def Chord.order? (reg : Registry B) (c : Chord B) : Option Command :=
  if c.isEmpty then none else (reg.lookup .command c).bind Command.ofKeys?

theorem Chord.order?_of_noCommand {c : Chord B} (h : reg.lookup .command c = none) :
    c.order? reg = none := by
  rw [order?, h]
  split <;> rfl

namespace Engine

/-- The erasure that begins the reports of an order. -/
def erasure? (e : Engine B n) : Command → Option Event
  | .cycle _ => e.lastWord.map fun last => eraseEvent last.sent
  | .releaseAll => none
  | .toggleSticky _ => none
  | .setMode _ => none

/-- An outcome whose events all have the sticky modifiers, but for an erasure at the
beginning. If these are not the ones from before, then they had changed before anything was
reported, and all that was reported is a release. -/
structure StickyKept (before : UInt8) (erasure : Option Event) (o : Outcome B n) : Prop where
  carried : ∃ rest, o.2 = (erasure.map Report.event).toList ++ rest ∧
    ∀ r ∈ rest, r.toEvent.Carries o.1.sticky
  changed : o.1.sticky ≠ before → ∀ r ∈ o.2, r.toEvent = o.1.releaseEvent

variable {e : Engine B n}

/-! ## What an event is made with -/

theorem or_and_eq_right (mods sticky : UInt8) : (mods ||| sticky) &&& sticky = sticky := by
  apply UInt8.toBitVec_inj.1
  ext i hi
  rw [UInt8.toBitVec_and, UInt8.toBitVec_or, BitVec.getElem_and, BitVec.getElem_or]
  cases mods.toBitVec[i] <;> cases sticky.toBitVec[i] <;> rfl

theorem modsOf_and_sticky (reg : Registry B) (e : Engine B n) (c : Chord B) :
    e.modsOf reg c &&& e.sticky = e.sticky :=
  or_and_eq_right (c.modByte reg) e.sticky

theorem carries_releaseEvent (e : Engine B n) : e.releaseEvent.Carries e.sticky := by
  unfold releaseEvent
  split
  · exact trivial
  · exact UInt8.and_self

/-- Each switch that is down adds its modifiers to those gathered before. -/
theorem exists_gather_eq (reg : Registry B) (sticky : UInt8) (cs : List (Chord B))
    {acc : List Key × UInt8} (h : ∃ own, acc.2 = own ||| sticky) :
    ∃ own, (cs.foldl (gather reg) acc).2 = own ||| sticky := by
  induction cs generalizing acc with
  | nil => exact h
  | cons c cs ih =>
      obtain ⟨own, hown⟩ := h
      rw [List.foldl_cons]
      apply ih
      refine ⟨own ||| (c.extractPlain reg).modByte reg, ?_⟩
      have hmods : (gather reg acc c).2 = acc.2 ||| (c.extractPlain reg).modByte reg := by
        unfold gather
        dsimp only
        split <;> rfl
      rw [hmods, hown, UInt8.or_assoc, UInt8.or_assoc, UInt8.or_comm sticky]

theorem gathered_and_sticky (reg : Registry B) (t : Tick B n) :
    (t.gathered reg).2 &&& t.before.sticky = t.before.sticky := by
  have hstart : ∃ own, (([], t.before.sticky) : List Key × UInt8).2 = own ||| t.before.sticky :=
    ⟨0, UInt8.zero_or.symm⟩
  obtain ⟨own, hown⟩ := exists_gather_eq reg t.before.sticky
    ((t.sampled reg).assembleSingles B t.before.mode).1 hstart
  rw [Tick.gathered, hown]
  exact or_and_eq_right own t.before.sticky

/-! ## What a chord comes to -/

theorem stickyKept_of_same {before : UInt8} {erasure : Option Event} {o : Outcome B n}
    (same : o.1.sticky = before) (rest : List Report)
    (reports : o.2 = (erasure.map Report.event).toList ++ rest)
    (carries : ∀ r ∈ rest, r.toEvent.Carries before) : StickyKept before erasure o := by
  constructor
  · rw [same]
    exact ⟨rest, reports, carries⟩
  · intro changed
    exact absurd same changed

theorem stickyKept_nil {o : Outcome B n} (same : o.1.sticky = e.sticky) (reports : o.2 = []) :
    StickyKept e.sticky none o :=
  stickyKept_of_same same [] reports fun _ hr => absurd hr List.not_mem_nil

theorem stickyKept_event {o : Outcome B n} {event : Event} (same : o.1.sticky = e.sticky)
    (reports : o.2 = [.event event]) (carries : event.Carries e.sticky) :
    StickyKept e.sticky none o := by
  refine stickyKept_of_same same [.event event] reports ?_
  intro r hr
  rw [List.mem_singleton.1 hr]
  exact carries

/-- The sticky modifiers have changed, and with them all is released. -/
theorem stickyKept_release (before : UInt8) {o : Outcome B n} {r : Report}
    (reports : o.2 = [r]) (release : r.toEvent = o.1.releaseEvent) :
    StickyKept before none o := by
  have hall : ∀ r' ∈ [r], r'.toEvent = o.1.releaseEvent := by
    intro r' hr
    rw [List.mem_singleton.1 hr]
    exact release
  constructor
  · refine ⟨[r], reports, ?_⟩
    intro r' hr
    rw [hall r' hr]
    exact carries_releaseEvent o.1
  · intro _
    rw [reports]
    exact hall

theorem stickyKept_sendWord? {c : Chord B} {o : Outcome B n} (h : e.sendWord? reg c = some o) :
    o.1.sticky = e.sticky ∧ ∀ r ∈ o.2, r.toEvent.Carries e.sticky := by
  obtain ⟨found, -, rfl⟩ := sendWord?_eq_some_iff.1 h
  refine ⟨rfl, ?_⟩
  intro r hr
  rw [List.mem_singleton.1 hr]
  exact modsOf_and_sticky reg e c

theorem stickyKept_setMode (mode : Nat) : StickyKept e.sticky none (e.setMode reg mode) := by
  unfold setMode
  split
  · exact stickyKept_release e.sticky rfl rfl
  · exact stickyKept_nil rfl rfl

/-- Apart from its erasure a cycle command reports the word that it sends. -/
theorem stickyKept_cycleLastWord (reg : Registry B) (e : Engine B n) (what : Cycle) :
    StickyKept e.sticky (e.erasure? (.cycle what)) (e.cycleLastWord reg what) := by
  unfold cycleLastWord erasure?
  cases e.lastWord with
  | none => exact stickyKept_nil rfl rfl
  | some last =>
      dsimp only
      cases hsent : e.sendWord? reg (cycleChord reg what last.chord) with
      | some sent =>
          obtain ⟨hsame, hcarries⟩ := stickyKept_sendWord? hsent
          exact stickyKept_of_same hsame sent.2 rfl hcarries
      | none => exact stickyKept_of_same rfl [] rfl fun _ hr => absurd hr List.not_mem_nil

theorem stickyKept_runCommand (reg : Registry B) (e : Engine B n) (command : Command) :
    StickyKept e.sticky (e.erasure? command) (e.runCommand reg command) := by
  cases command with
  | cycle what => exact stickyKept_cycleLastWord reg e what
  | releaseAll => exact stickyKept_release e.sticky rfl rfl
  | toggleSticky mods => exact stickyKept_release e.sticky rfl rfl
  | setMode mode => exact stickyKept_setMode mode

theorem Dispatched.stickyKept {c : Chord B} {o : Outcome B n} (d : Dispatched reg e c o) :
    StickyKept e.sticky ((c.order? reg).bind e.erasure?) o := by
  cases d with
  | blank empty =>
      rw [Chord.order?, if_pos empty]
      exact stickyKept_nil rfl rfl
  | noOrder some found order =>
      rw [Chord.order?, some, found, Option.bind_some, order]
      exact stickyKept_nil rfl rfl
  | @order keys command some found order =>
      have horder : c.order? reg = .some command := by
        rw [Chord.order?, some, found, Option.bind_some, order]
        rfl
      rw [horder]
      exact stickyKept_runCommand reg e command
  | mods _ noCommand _ =>
      rw [Chord.order?_of_noCommand noCommand]
      exact stickyKept_event rfl rfl (modsOf_and_sticky reg e _)
  | keys noCommand _ _ =>
      rw [Chord.order?_of_noCommand noCommand]
      exact stickyKept_event rfl rfl (modsOf_and_sticky reg e _)
  | word noCommand _ _ found =>
      rw [Chord.order?_of_noCommand noCommand]
      obtain ⟨hsame, hcarries⟩ := stickyKept_sendWord? found
      exact stickyKept_of_same hsame _ rfl hcarries
  | unmapped noCommand =>
      rw [Chord.order?_of_noCommand noCommand]
      exact stickyKept_nil rfl rfl

/-! ## Ticks and other inputs -/

/-- The releases that are due keep the sticky modifiers down. -/
theorem StickyKept.releasePhase {before : UInt8} {erasure : Option Event} {o : Outcome B n}
    (h : StickyKept before erasure o) (now : Nat) (gaming : Bool) :
    StickyKept before erasure
      ((o.1.releasePhase now gaming).1, o.2 ++ (o.1.releasePhase now gaming).2) := by
  obtain ⟨⟨rest, hreports, hcarries⟩, hchanged⟩ := h
  have hreleased : ∀ r ∈ (o.1.releasePhase now gaming).2, r.toEvent = o.1.releaseEvent := by
    intro r hr
    rw [Engine.releasePhase] at hr
    dsimp only at hr
    split at hr
    · rw [List.mem_singleton.1 hr]
      rfl
    · exact absurd hr List.not_mem_nil
  constructor
  · refine ⟨rest ++ (o.1.releasePhase now gaming).2, ?_, ?_⟩
    · rw [hreports, List.append_assoc]
    · intro r hr
      rcases List.mem_append.1 hr with hr | hr
      · exact hcarries r hr
      · rw [hreleased r hr]
        exact carries_releaseEvent o.1
  · intro changed r hr
    rcases List.mem_append.1 hr with hr | hr
    · exact hchanged changed r hr
    · exact hreleased r hr

end Engine

/-- The erasure that begins the reports of a tick. -/
def Tick.erasure? (reg : Registry B) (t : Tick B n) : Option Event :=
  (t.command? reg).bind t.before.erasure?

namespace Engine

/-- The erasure that begins the reports of a step. -/
def Input.erasure? (reg : Registry B) (e : Engine B n) (i : Input n) : Option Event :=
  (i.tick? e).bind (Tick.erasure? reg)

theorem Input.erasure?_unmodified {i : Input n} {erase : Event}
    (h : i.erasure? reg e = some erase) : ∃ keys, erase = .sequence keys 0 := by
  obtain ⟨t, -, hcommand⟩ := Option.bind_eq_some_iff.1 h
  obtain ⟨command, -, hword⟩ := Option.bind_eq_some_iff.1 hcommand
  cases command with
  | cycle what =>
      obtain ⟨last, -, rfl⟩ := Option.map_eq_some_iff.1 hword
      exact ⟨_, rfl⟩
  | releaseAll => cases hword
  | toggleSticky mods => cases hword
  | setMode mode => cases hword

theorem stickyKept_tick (reg : Registry B) (t : Tick B n) :
    StickyKept t.before.sticky (t.erasure? reg) (t.after reg, t.reports reg) := by
  cases mode : t.gaming reg with
  | true =>
      have hchord : t.chord? reg = none := by
        rw [Tick.chord?, mode]
        rfl
      rw [Tick.erasure?, Tick.command?, hchord]
      rcases Tick.gaming_cases mode with ⟨-, hreports, hafter⟩ | ⟨-, hreports, hafter⟩
      · rw [hreports, hafter]
        exact stickyKept_nil rfl rfl
      · rw [hreports, hafter]
        exact stickyKept_event rfl rfl (gathered_and_sticky reg t)
  | false =>
      obtain ⟨o, ho, hafter, hreports⟩ := Tick.calm_cases mode
      rw [hafter, hreports]
      refine StickyKept.releasePhase ?_ t.now false
      rcases ho with ⟨hchord, rfl⟩ | ⟨bits, hchord, d⟩
      · rw [Tick.erasure?, Tick.command?, hchord]
        exact stickyKept_nil rfl rfl
      · have herasure : t.erasure? reg =
            ((Chord.ofBits t.before.mode bits).order? reg).bind (t.sending reg).erasure? := by
          rw [Tick.erasure?, Tick.command?, hchord]
          rfl
        rw [herasure]
        exact d.stickyKept

theorem stickyKept_step (reg : Registry B) (e : Engine B n) (i : Input n) :
    StickyKept e.sticky (i.erasure? reg e) (e.step reg i) := by
  cases i with
  | tick now down => exact stickyKept_tick reg ⟨e, now, down⟩
  | control m =>
      cases m with
      | setMode mode => exact stickyKept_setMode mode
      | exit => exact stickyKept_nil rfl rfl
  | apply settings => exact stickyKept_nil rfl rfl

/-- **Sticky modifiers are in every event but an erasure.** Take any state that an engine can be
in, and any input. Every sequence and every hold that the engine reports has all the sticky
modifiers of the moment, except that a cycle command which finds a word begins with a sequence
that has none.

The moment is the end of the step: if the sticky modifiers are not the ones from before it,
then nothing is reported but the release that belongs to the new ones. -/
theorem sticky_in_reports (reg : Registry B) (e : Engine B n) (i : Input n) :
    ∃ rest, (e.step reg i).2 = ((i.erasure? reg e).map Report.event).toList ++ rest ∧
      (∀ r ∈ rest, r.toEvent.Carries (e.step reg i).1.sticky) ∧
      (∀ erase, i.erasure? reg e = some erase → ∃ keys, erase = .sequence keys 0 ∧
        (erase.Carries (e.step reg i).1.sticky ↔ (e.step reg i).1.sticky = 0)) ∧
      ((e.step reg i).1.sticky ≠ e.sticky →
        ∀ r ∈ (e.step reg i).2, r.toEvent = (e.step reg i).1.releaseEvent) := by
  obtain ⟨⟨rest, hreports, hcarries⟩, hchanged⟩ := stickyKept_step reg e i
  refine ⟨rest, hreports, hcarries, ?_, hchanged⟩
  intro erase herase
  obtain ⟨keys, rfl⟩ := Input.erasure?_unmodified herase
  refine ⟨keys, rfl, ?_⟩
  rw [Event.Carries, UInt8.zero_and]
  exact eq_comm

/-- Switch 0 is pressed and released, then switch 2, and then switch 1 is pressed. -/
def wordThenShift : List (Input 3) :=
  wordThenSticky.take 12 ++ [.tick 200000 (·.val == 1), .tick 210000 (·.val == 1)]

/-- **Erased without the sticky modifiers.** Shift is sticky when the spacing of the last word
is changed. The new word is sent with it, and the old one is erased without. -/
theorem erased_without_sticky :
    start spacedWord 3 .usual = .ok (fresh 1 3 .usual) ∧
      ((fresh 1 3 .usual).run spacedWord wordThenShift).1.sticky = Modifier.leftShift ∧
      (((fresh 1 3 .usual).run spacedWord wordThenShift).1.step spacedWord
          (.tick 240000 (·.val == 1))).1.sticky = Modifier.leftShift ∧
      (((fresh 1 3 .usual).run spacedWord wordThenShift).1.step spacedWord
          (.tick 240000 (·.val == 1))).2 =
        [.event (eraseEvent 2), .event (.sequence [Key.plain 4] Modifier.leftShift)] ∧
      ¬(eraseEvent 2).Carries Modifier.leftShift := by
  refine ⟨rfl, by decide +kernel, by decide +kernel, by decide +kernel, ?_⟩
  intro carries
  have hnone : (0 : UInt8) &&& Modifier.leftShift = Modifier.leftShift := carries
  exact absurd hnone (by decide)

end Engine

end Chordboard
