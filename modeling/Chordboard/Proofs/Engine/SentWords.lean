import Chordboard.Proofs.Engine.LastWord
import Mathlib.Data.List.Induction

/-!
# Words among the reports

Whatever happens to an engine, it taps nothing and keeps its last word, or it forgets the word, or
the last that it taps is a word, which it remembers (`Worded`). So some step has reported the last
word, and nothing was tapped since (`exists_step_of_lastWord`): the word stands in the reports
(`Remembered`), and it is the last sequence among them (`LastReported`).
-/

namespace Chordboard

variable {B n : Nat} {reg : Registry B}

/-- What is sent for a chord as a word. -/
def Chord.word? (reg : Registry B) (c : Chord B) : Option (List Key) :=
  (reg.lookup .word c).map (c.spell reg)

theorem Chord.length_word?_le {c : Chord B} {keys : List Key} (h : c.word? reg = some keys) :
    keys.length ≤ maxKeys := by
  obtain ⟨found, hfound, rfl⟩ := Option.map_eq_some_iff.1 h
  exact length_spell_le reg c (Registry.length_of_lookup hfound).2

/-- The keys that an event taps, and the modifiers it taps them with. -/
def Event.sequence? : Event → Option (List Key × UInt8)
  | .sequence keys mods => some (keys, mods)
  | .hold _ _ => none
  | .release => none

/-- The report of an event that taps nothing. -/
def Report.Silent (r : Report) : Prop :=
  ∃ e : Event, r = .event e ∧ e.sequence? = none

theorem Report.not_silent_releaseAll : ¬Report.releaseAll.Silent := by
  rintro ⟨e, h, -⟩
  cases h

/-! ## Sequences among the reports -/

/-- The sequences among the reports, in their order. -/
def sequences (rs : List Report) : List (List Key × UInt8) :=
  rs.filterMap fun r => r.toEvent.sequence?

def lastSequence? (rs : List Report) : Option (List Key × UInt8) := (sequences rs).getLast?

theorem Report.Silent.sequence? {r : Report} (h : r.Silent) : r.toEvent.sequence? = none := by
  obtain ⟨e, rfl, silent⟩ := h
  exact silent

@[simp] theorem sequences_append (front back : List Report) :
    sequences (front ++ back) = sequences front ++ sequences back := List.filterMap_append

theorem sequences_of_silent {rs : List Report} (silent : ∀ r ∈ rs, r.Silent) :
    sequences rs = [] := by
  refine List.filterMap_eq_nil_iff.2 ?_
  intro r hr
  exact (silent r hr).sequence?

theorem lastSequence?_of_silent (front : List Report) (keys : List Key) (mods : UInt8)
    {back : List Report} (silent : ∀ r ∈ back, r.Silent) :
    lastSequence? (front ++ .event (.sequence keys mods) :: back) = some (keys, mods) := by
  have hword : sequences (.event (.sequence keys mods) :: back) = [(keys, mods)] := by
    rw [← List.singleton_append, sequences_append, sequences_of_silent silent, List.append_nil]
    rfl
  rw [lastSequence?, sequences_append, hword, List.getLast?_concat]

namespace Engine

/-! ## What the engine remembers -/

/-- The last word is in the reports, and nothing was tapped since. -/
def Remembered (reg : Registry B) (rs : List Report) (e : Engine B n) : Prop :=
  ∀ last, e.lastWord = some last → ∃ keys mods front back,
    last.chord.word? reg = some keys ∧ last.sent = keys.length ∧
      rs = front ++ .event (.sequence keys mods) :: back ∧ ∀ r ∈ back, r.Silent

variable {rs : List Report} {e : Engine B n}

theorem silent_releaseEvent (e : Engine B n) : (Report.event e.releaseEvent).Silent := by
  refine ⟨_, rfl, ?_⟩
  unfold releaseEvent
  split <;> rfl

/-- A word that is sent is the word of its chord. -/
theorem word?_of_sendWord? {c : Chord B} {o : Outcome B n} (h : e.sendWord? reg c = some o) :
    ∃ keys, c.word? reg = some keys ∧
      o = ({ e with lastWord := some ⟨c, keys.length⟩ },
        [.event (.sequence keys (e.modsOf reg c))]) := by
  obtain ⟨found, hfound, rfl⟩ := sendWord?_eq_some_iff.1 h
  exact ⟨_, Option.map_eq_some_iff.2 ⟨found, hfound, rfl⟩, rfl⟩

/-! ## What an outcome says of words -/

/-- An outcome taps nothing and keeps the last word, or it forgets the word, or the last that it
taps is a word, which it remembers. -/
inductive Worded (reg : Registry B) (e : Engine B n) (o : Outcome B n) : Prop where
  | silent (kept : o.1.lastWord = e.lastWord) (silent : ∀ r ∈ o.2, r.Silent)
  | forgotten (none : o.1.lastWord = none)
  | sent (c : Chord B) (keys : List Key) (front back : List Report)
      (word : c.word? reg = some keys) (last : o.1.lastWord = some ⟨c, keys.length⟩)
      (reports : o.2 = front ++ .event (.sequence keys (o.1.modsOf reg c)) :: back)
      (silent : ∀ r ∈ back, r.Silent)

theorem worded_nil {e' : Engine B n} (kept : e'.lastWord = e.lastWord) :
    Worded reg e (e', []) :=
  .silent kept fun _ hr => absurd hr List.not_mem_nil

theorem worded_event {e' : Engine B n} {r : Report} (kept : e'.lastWord = e.lastWord)
    (silent : r.Silent) : Worded reg e (e', [r]) := by
  refine .silent kept ?_
  intro r' hr
  rw [List.mem_singleton.1 hr]
  exact silent

theorem worded_sendWord? {c : Chord B} {o : Outcome B n} (h : e.sendWord? reg c = some o)
    (front : List Report) : Worded reg e (o.1, front ++ o.2) := by
  obtain ⟨keys, hword, rfl⟩ := word?_of_sendWord? h
  exact .sent c keys front [] hword rfl rfl fun _ hr => absurd hr List.not_mem_nil

theorem worded_setMode (mode : Nat) : Worded reg e (e.setMode reg mode) := by
  unfold setMode
  split
  · exact .forgotten rfl
  · exact worded_nil rfl

theorem worded_cycleLastWord (what : Cycle) : Worded reg e (e.cycleLastWord reg what) := by
  unfold cycleLastWord
  split
  · exact worded_nil rfl
  · dsimp only
    split
    · rename_i sent hsent
      exact worded_sendWord? hsent [_]
    · exact .forgotten rfl

theorem worded_runCommand (command : Command) : Worded reg e (e.runCommand reg command) := by
  cases command with
  | cycle what => exact worded_cycleLastWord what
  | releaseAll => exact .forgotten rfl
  | toggleSticky mods => exact worded_event rfl (silent_releaseEvent _)
  | setMode mode => exact worded_setMode mode

/-- Keys that are not a word make the engine forget the word before them. -/
theorem Dispatched.worded {c : Chord B} {o : Outcome B n} (d : Dispatched reg e c o) :
    Worded reg e o := by
  cases d with
  | blank => exact worded_nil rfl
  | noOrder => exact worded_nil rfl
  | order => exact worded_runCommand _
  | mods => exact worded_event rfl ⟨_, rfl, rfl⟩
  | keys => exact .forgotten rfl
  | word _ _ _ found =>
      obtain ⟨keys, hword, rfl⟩ := word?_of_sendWord? found
      exact .sent _ keys [] [] hword rfl rfl fun _ hr => absurd hr List.not_mem_nil
  | unmapped => exact worded_nil rfl

theorem silent_of_mem_releasePhase {e : Engine B n} {now : Nat} {gaming : Bool} {r : Report}
    (hr : r ∈ (e.releasePhase now gaming).2) : r.Silent := by
  rw [releasePhase] at hr
  dsimp only at hr
  split at hr
  · rw [List.mem_singleton.1 hr]
    exact silent_releaseEvent _
  · cases hr

/-- The releases that are due tap nothing. -/
theorem Worded.releasePhase {o : Outcome B n} (h : Worded reg e o) (now : Nat) :
    Worded reg e ((o.1.releasePhase now false).1, o.2 ++ (o.1.releasePhase now false).2) := by
  cases h with
  | silent kept silent =>
      refine .silent kept ?_
      intro r hr
      rcases List.mem_append.1 hr with hr | hr
      · exact silent r hr
      · exact silent_of_mem_releasePhase hr
  | forgotten none => exact .forgotten none
  | sent c keys front back word last reports silent =>
      refine .sent c keys front (back ++ (o.1.releasePhase now false).2) word last ?_ ?_
      · rw [reports, List.append_assoc]
        rfl
      · intro r hr
        rcases List.mem_append.1 hr with hr | hr
        · exact silent r hr
        · exact silent_of_mem_releasePhase hr

theorem worded_tick (reg : Registry B) (t : Tick B n) :
    Worded reg t.before (t.after reg, t.reports reg) := by
  cases mode : t.gaming reg with
  | true =>
      rcases Tick.gaming_cases mode with ⟨-, hreports, hafter⟩ | ⟨-, hreports, hafter⟩
      · rw [hreports, hafter]
        exact worded_nil rfl
      · rw [hreports, hafter]
        exact worded_event rfl ⟨_, rfl, rfl⟩
  | false =>
      obtain ⟨o, ho, hafter, hreports⟩ := Tick.calm_cases mode
      have hworded : Worded reg t.before o := by
        rcases ho with ⟨-, rfl⟩ | ⟨bits, -, d⟩
        · exact worded_nil rfl
        · cases d.worded with
          | silent kept silent => exact .silent kept silent
          | forgotten none => exact .forgotten none
          | sent c keys front back word last reports silent =>
              exact .sent c keys front back word last reports silent
      rw [hafter, hreports]
      exact hworded.releasePhase t.now

theorem worded_step (reg : Registry B) (e : Engine B n) (i : Input n) :
    Worded reg e (e.step reg i) := by
  cases i with
  | tick now down => exact worded_tick reg ⟨e, now, down⟩
  | control m =>
      cases m with
      | setMode mode => exact worded_setMode mode
      | exit => exact worded_nil rfl
  | apply settings => exact worded_nil rfl

/-! ## When the last word was reported -/

/-- Some step reported the last word, with the modifiers that were sticky at its end, and nothing
was tapped since. -/
theorem exists_step_of_lastWord (settings : Settings) (inputs : List (Input n))
    {last : LastWord B} (word : ((fresh B n settings).run reg inputs).1.lastWord = some last) :
    ∃ keys front i back fore aft, last.chord.word? reg = some keys ∧ last.sent = keys.length ∧
      inputs = front ++ i :: back ∧
      (((fresh B n settings).run reg front).1.step reg i).2 = fore ++ .event (.sequence keys
        ((((fresh B n settings).run reg front).1.step reg i).1.modsOf reg last.chord)) :: aft ∧
      (∀ r ∈ aft, r.Silent) ∧
      ∀ r ∈ ((((fresh B n settings).run reg front).1.step reg i).1.run reg back).2, r.Silent := by
  induction inputs using List.reverseRecOn with
  | nil => cases word
  | append_singleton inputs i ih =>
      rw [run_append] at word
      cases worded_step reg ((fresh B n settings).run reg inputs).1 i with
      | silent kept silent =>
          obtain ⟨keys, front, j, back, fore, aft, hword, hsent, rfl, hreports, haft, hlater⟩ :=
            ih (kept.symm.trans word)
          refine ⟨keys, front, j, back ++ [i], fore, aft, hword, hsent, by simp, hreports, haft, ?_⟩
          rw [run_append, run_cons] at silent
          rw [run_append, run_cons, run_nil, List.append_nil]
          intro r hr
          rcases List.mem_append.1 hr with hr | hr
          · exact hlater r hr
          · exact silent r hr
      | forgotten none => cases none.symm.trans word
      | sent c keys fore aft hword hlast reports silent =>
          have hsame : some ⟨c, keys.length⟩ = some last := hlast.symm.trans word
          cases hsame
          exact ⟨keys, inputs, i, [], fore, aft, hword, rfl, rfl, reports, silent,
            fun _ hr => absurd hr List.not_mem_nil⟩

theorem remembered_run (settings : Settings) (inputs : List (Input n)) :
    Remembered reg ((fresh B n settings).run reg inputs).2
      ((fresh B n settings).run reg inputs).1 := by
  intro last word
  obtain ⟨keys, front, i, back, fore, aft, hword, hsent, rfl, hreports, haft, hlater⟩ :=
    exists_step_of_lastWord settings inputs word
  have hrun := congrArg Prod.snd (run_append reg (fresh B n settings) front (i :: back))
  rw [run_cons] at hrun
  dsimp only at hrun
  rw [hreports, List.append_assoc, ← List.append_assoc, List.cons_append] at hrun
  refine ⟨keys, _, _, _, hword, hsent, hrun, ?_⟩
  intro r hr
  rcases List.mem_append.1 hr with hr | hr
  · exact haft r hr
  · exact hlater r hr

/-- The sequence is the last one that the run reported, and the engine reported it in the step
that left it as `said`. -/
def LastReported (reg : Registry B) (e : Engine B n) (inputs : List (Input n))
    (s : List Key × UInt8) (said : Engine B n) : Prop :=
  ∃ front i back, inputs = front ++ i :: back ∧
    ((e.run reg front).1.step reg i).1 = said ∧
    lastSequence? ((e.run reg front).1.step reg i).2 = some s ∧
    sequences (said.run reg back).2 = []

theorem LastReported.lastSequence? {inputs : List (Input n)} {s : List Key × UInt8}
    {said : Engine B n} (h : LastReported reg e inputs s said) :
    lastSequence? (e.run reg inputs).2 = some s := by
  obtain ⟨front, i, back, rfl, rfl, hlast, hlater⟩ := h
  rw [run_append, run_cons, Chordboard.lastSequence?, sequences_append, sequences_append, hlater,
    List.append_nil, List.getLast?_append, ← Chordboard.lastSequence?, hlast, Option.some_or]

/-- The last word is the last sequence that was reported. -/
theorem lastReported_run (settings : Settings) (inputs : List (Input n)) {last : LastWord B}
    (word : ((fresh B n settings).run reg inputs).1.lastWord = some last) :
    ∃ keys said, last.chord.word? reg = some keys ∧
      LastReported reg (fresh B n settings) inputs (keys, said.modsOf reg last.chord) said := by
  obtain ⟨keys, front, i, back, fore, aft, hword, -, hinputs, hreports, haft, hlater⟩ :=
    exists_step_of_lastWord settings inputs word
  refine ⟨keys, _, hword, front, i, back, hinputs, rfl, ?_, sequences_of_silent hlater⟩
  rw [hreports]
  exact lastSequence?_of_silent fore keys _ haft

end Engine

end Chordboard
