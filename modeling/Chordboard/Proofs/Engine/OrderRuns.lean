import Chordboard.Proofs.Engine.Erasure
import Chordboard.Proofs.Engine.StickyHistory

/-!
# Orders in a row

It takes a chord to give an order, so a run needs several ticks for each of its orders, and it
reports releases in between. None of that matters to the mode, the last word, the sticky
modifiers, and the sequences that are reported: a run whose chords are all orders leaves them as
its orders do when they are carried out one after the other (`orders_obeyed`). For cycle commands
this tells the word that is sent at the end (`word_of_cycles`).
-/

namespace Chordboard

variable {B n : Nat} {reg : Registry B}

namespace Engine

/-! ## Orders that are carried out -/

/-- Carries out orders one after the other. -/
def obey (reg : Registry B) (e : Engine B n) : List Command → Outcome B n
  | [] => (e, [])
  | c :: rest =>
      let first := e.runCommand reg c
      let later := obey reg first.1 rest
      (later.1, first.2 ++ later.2)

theorem obey_append (reg : Registry B) (e : Engine B n) (front back : List Command) :
    e.obey reg (front ++ back) =
      (((e.obey reg front).1.obey reg back).1,
        (e.obey reg front).2 ++ ((e.obey reg front).1.obey reg back).2) := by
  induction front generalizing e with
  | nil => rfl
  | cons c front ih =>
      rw [List.cons_append, obey, ih, obey, List.append_assoc]

theorem obey_singleton (reg : Registry B) (e : Engine B n) (c : Command) :
    e.obey reg [c] = e.runCommand reg c := by
  rw [obey, obey]
  dsimp only
  rw [List.append_nil]

/-- All that an order reads of an engine. -/
structure Alike (e e' : Engine B n) : Prop where
  mode : e'.mode = e.mode
  lastWord : e'.lastWord = e.lastWord
  sticky : e'.sticky = e.sticky

variable {e e' : Engine B n}

theorem Alike.refl (e : Engine B n) : Alike e e := ⟨rfl, rfl, rfl⟩

/-- An order does the same to two engines that are alike. -/
theorem Alike.runCommand (reg : Registry B) (h : Alike e e') (c : Command) :
    Alike (e.runCommand reg c).1 (e'.runCommand reg c).1 ∧
      (e'.runCommand reg c).2 = (e.runCommand reg c).2 := by
  obtain ⟨settings, switches, mode, lastWord, sticky⟩ := e
  obtain ⟨settings', switches', mode', lastWord', sticky'⟩ := e'
  obtain ⟨rfl, rfl, rfl⟩ := h
  cases c with
  | cycle what =>
      rw [Engine.runCommand, Engine.runCommand, cycleLastWord, cycleLastWord]
      cases lastWord' with
      | none => exact ⟨⟨rfl, rfl, rfl⟩, rfl⟩
      | some last =>
          dsimp only
          rw [sendWord?, sendWord?]
          cases reg.lookup .word (cycleChord reg what last.chord) with
          | none => exact ⟨⟨rfl, rfl, rfl⟩, rfl⟩
          | some found => exact ⟨⟨rfl, rfl, rfl⟩, rfl⟩
  | releaseAll => exact ⟨⟨rfl, rfl, rfl⟩, rfl⟩
  | toggleSticky mods => exact ⟨⟨rfl, rfl, rfl⟩, rfl⟩
  | setMode mode =>
      rw [Engine.runCommand, Engine.runCommand, Engine.setMode, Engine.setMode]
      cases reg.isValidMode mode with
      | true => exact ⟨⟨rfl, rfl, rfl⟩, rfl⟩
      | false => exact ⟨⟨rfl, rfl, rfl⟩, rfl⟩

theorem Alike.obey (reg : Registry B) (h : Alike e e') (orders : List Command) :
    Alike (e.obey reg orders).1 (e'.obey reg orders).1 ∧
      (e'.obey reg orders).2 = (e.obey reg orders).2 := by
  induction orders generalizing e e' with
  | nil => exact ⟨h, rfl⟩
  | cons c rest ih =>
      obtain ⟨hfirst, hreports⟩ := h.runCommand reg c
      obtain ⟨hrest, hlater⟩ := ih hfirst
      refine ⟨hrest, ?_⟩
      rw [Engine.obey, Engine.obey, hreports, hlater]

theorem Alike.trans {e'' : Engine B n} (h : Alike e e') (h' : Alike e' e'') : Alike e e'' :=
  ⟨h'.mode.trans h.mode, h'.lastWord.trans h.lastWord, h'.sticky.trans h.sticky⟩

end Engine

/-! ## Ticks -/

/-- A tick without a chord taps nothing. -/
theorem Tick.silent_of_no_chord {t : Tick B n} (none : t.chord? reg = none) :
    ∀ r ∈ t.reports reg, r.Silent := by
  cases mode : t.gaming reg with
  | true =>
      rcases Tick.gaming_cases mode with ⟨-, hreports, -⟩ | ⟨-, hreports, -⟩
      · rw [hreports]
        exact fun _ hr => absurd hr List.not_mem_nil
      · rw [hreports]
        intro r hr
        rw [List.mem_singleton.1 hr]
        exact ⟨_, rfl, rfl⟩
  | false =>
      obtain ⟨o, ⟨-, rfl⟩ | ⟨bits, hsome, -⟩, -, hreports⟩ := Tick.calm_cases mode
      · rw [hreports]
        exact fun r hr => Engine.silent_of_mem_releasePhase hr
      · rw [none] at hsome
        cases hsome

namespace Engine

/-- Every chord of the run gives an order. -/
def OrdersOnly (reg : Registry B) (e : Engine B n) (inputs : List (Input n)) : Prop :=
  ∀ t ∈ e.ticks reg inputs, (t.chord? reg).isSome → (t.command? reg).isSome

/-- A tick that gives an order carries it out, and taps nothing besides. -/
theorem order_obeyed {t : Tick B n} {c : Command} (order : t.command? reg = some c) :
    Alike (t.before.runCommand reg c).1 (t.after reg) ∧
      sequences (t.reports reg) = sequences (t.before.runCommand reg c).2 := by
  have hsending : Alike t.before (t.sending reg) := ⟨rfl, rfl, rfl⟩
  obtain ⟨halike, hsame⟩ := hsending.runCommand reg c
  obtain ⟨bits, hchord, hdispatch⟩ := Tick.dispatch_of_command order
  constructor
  · rcases Tick.after_cases reg t with ⟨hnone, -⟩ | ⟨bits', switches, hsome, hafter⟩
    · rw [hchord] at hnone
      cases hnone
    · rw [hchord] at hsome
      cases hsome
      rw [hafter, hdispatch]
      exact halike.trans ⟨rfl, rfl, rfl⟩
  · obtain ⟨released, hreports, hreleased⟩ := Tick.reports_of_command order
    have hsilent : ∀ r ∈ released, r.Silent := by
      intro r hr
      rcases hreleased with rfl | rfl
      · cases hr
      · rw [List.mem_singleton.1 hr]
        exact silent_releaseEvent _
    rw [hreports, sequences_append, sequences_of_silent hsilent, List.append_nil, hsame]

/-- A step that taps nothing but for its order leaves what the order leaves. -/
theorem order_obeyed_step {e : Engine B n} {i : Input n}
    (only : ∀ t, i.tick? e = some t → (t.chord? reg).isSome → (t.command? reg).isSome) :
    Alike (e.obey reg (i.order? reg e).toList).1 (e.step reg i).1 ∧
      sequences (e.step reg i).2 = sequences (e.obey reg (i.order? reg e).toList).2 := by
  cases i with
  | tick now down =>
      have honly := only ⟨e, now, down⟩ rfl
      show Alike (e.obey reg ((⟨e, now, down⟩ : Tick B n).command? reg).toList).1
          ((⟨e, now, down⟩ : Tick B n).after reg) ∧
        sequences ((⟨e, now, down⟩ : Tick B n).reports reg) =
          sequences (e.obey reg ((⟨e, now, down⟩ : Tick B n).command? reg).toList).2
      cases order : (⟨e, now, down⟩ : Tick B n).command? reg with
      | some c =>
          rw [Option.toList_some, obey_singleton]
          exact order_obeyed order
      | none =>
          have hchord : (⟨e, now, down⟩ : Tick B n).chord? reg = none := by
            rw [← Option.not_isSome_iff_eq_none]
            intro hsome
            have horder := honly hsome
            rw [order] at horder
            cases horder
          refine ⟨?_, sequences_of_silent (Tick.silent_of_no_chord hchord)⟩
          rcases Tick.after_cases reg ⟨e, now, down⟩ with ⟨-, switches, hafter⟩ | ⟨_, _, hsome, -⟩
          · rw [hafter]
            exact ⟨rfl, rfl, rfl⟩
          · rw [hchord] at hsome
            cases hsome
  | control m =>
      cases m with
      | setMode mode =>
          show Alike (e.obey reg [.setMode mode]).1 (e.setMode reg mode).1 ∧
            sequences (e.setMode reg mode).2 = sequences (e.obey reg [.setMode mode]).2
          rw [obey_singleton]
          exact ⟨Alike.refl _, rfl⟩
      | exit => exact ⟨Alike.refl e, rfl⟩
  | apply settings => exact ⟨⟨rfl, rfl, rfl⟩, rfl⟩

/-- **A run of orders obeys them.** Where all chords give orders, a run leaves the mode, the last
word and the sticky modifiers that its orders leave when they are carried out one after the
other, and it reports the same sequences. -/
theorem orders_obeyed {e : Engine B n} {inputs : List (Input n)} (only : e.OrdersOnly reg inputs) :
    Alike (e.obey reg (e.orders reg inputs)).1 (e.run reg inputs).1 ∧
      sequences (e.run reg inputs).2 = sequences (e.obey reg (e.orders reg inputs)).2 := by
  induction inputs generalizing e with
  | nil => exact ⟨Alike.refl e, rfl⟩
  | cons i rest ih =>
      have hfirst : ∀ t, i.tick? e = some t → (t.chord? reg).isSome → (t.command? reg).isSome := by
        intro t ht
        refine only t (List.mem_append_left _ ?_)
        rw [ht]
        exact List.mem_singleton_self t
      have hrest : (e.step reg i).1.OrdersOnly reg rest :=
        fun t ht => only t (List.mem_append_right _ ht)
      obtain ⟨hstep, hreports⟩ := order_obeyed_step hfirst
      obtain ⟨hrun, hlater⟩ := ih hrest
      obtain ⟨hobey, hsame⟩ := hstep.obey reg ((e.step reg i).1.orders reg rest)
      rw [run_cons, orders, obey_append]
      refine ⟨hobey.trans hrun, ?_⟩
      rw [sequences_append, sequences_append, hreports, hlater, hsame]

/-- What comes of orders in a row: they are carried out on the spot, or a run gives them, and
sends nothing else in between. -/
inductive Obeyed (reg : Registry B) (e : Engine B n) (orders : List Command) :
    Outcome B n → Prop where
  | atOnce : Obeyed reg e orders (e.obey reg orders)
  | inRun (inputs : List (Input n)) (only : e.OrdersOnly reg inputs)
      (given : e.orders reg inputs = orders) : Obeyed reg e orders (e.run reg inputs)

theorem Obeyed.eq_obey {e : Engine B n} {orders : List Command} {o : Outcome B n}
    (h : Obeyed reg e orders o) :
    Alike (e.obey reg orders).1 o.1 ∧ lastSequence? o.2 = lastSequence? (e.obey reg orders).2 := by
  cases h with
  | atOnce => exact ⟨Alike.refl _, rfl⟩
  | inRun inputs only given =>
      obtain ⟨halike, hsequences⟩ := orders_obeyed only
      rw [← given]
      exact ⟨halike, congrArg List.getLast? hsequences⟩

/-! ## Cycle commands in a row -/

/-- The chord of the last word after cycle commands in a row. -/
def cycleAll (reg : Registry B) (whats : List Cycle) (c : Chord B) : Chord B :=
  whats.foldl (fun c what => cycleChord reg what c) c

theorem cycleAll_concat (reg : Registry B) (front : List Cycle) (what : Cycle) (c : Chord B) :
    cycleAll reg (front ++ [what]) c = cycleChord reg what (cycleAll reg front c) :=
  List.foldl_concat ..

theorem Resendable.cycleAll (v : reg.Valid) {c : Chord B} (h : Resendable reg c)
    (whats : List Cycle) : Resendable reg (cycleAll reg whats c) :=
  List.foldlRecOn (motive := Resendable reg) whats _ h fun _ hc what _ => hc.cycleChord v what

/-- Cycle commands carried out one after the other leave a last word on the cycled chord. -/
theorem obey_cycles (v : reg.Valid) {e : Engine B n} {last : LastWord B}
    (hlast : e.lastWord = some last) (h : Resendable reg last.chord) (whats : List Cycle) :
    ∃ now, (e.obey reg (whats.map .cycle)).1 = { e with lastWord := some now } ∧
      now.chord = cycleAll reg whats last.chord := by
  induction whats generalizing e last with
  | nil => exact ⟨last, by rw [← hlast]; rfl, rfl⟩
  | cons what rest ih =>
      obtain ⟨keys, -, hcycle⟩ := cycleLastWord_eq v hlast h what
      have hnext : ({ e with lastWord := some ⟨cycleChord reg what last.chord, keys.length⟩ } :
          Engine B n).lastWord = some ⟨cycleChord reg what last.chord, keys.length⟩ := rfl
      rw [List.map_cons, obey, runCommand, hcycle]
      exact ih hnext (h.cycleChord v what)

/-- **Cycle commands in a row.** Whatever way cycle commands come in a row, the last sequence that
they report is the word of the cycled chord, with its modifiers, and they leave that word. -/
theorem word_of_cycles (v : reg.Valid) {e : Engine B n} {last : LastWord B}
    (hlast : e.lastWord = some last) (h : Resendable reg last.chord) (front : List Cycle)
    (what : Cycle) {o : Outcome B n}
    (hobeyed : Obeyed reg e ((front ++ [what]).map .cycle) o) :
    ∃ keys, (cycleAll reg (front ++ [what]) last.chord).word? reg = some keys ∧
      o.1.lastWord = some ⟨cycleAll reg (front ++ [what]) last.chord, keys.length⟩ ∧
      lastSequence? o.2 =
        some (keys, e.modsOf reg (cycleAll reg (front ++ [what]) last.chord)) := by
  obtain ⟨halike, hsequence⟩ := hobeyed.eq_obey
  obtain ⟨now, hfront, hnow⟩ := obey_cycles v hlast h front
  have hresend : Resendable reg now.chord := by
    rw [hnow]
    exact h.cycleAll v front
  obtain ⟨_, hsent, hcycle⟩ := cycleLastWord_eq v (e := { e with lastWord := some now }) rfl
    hresend what
  obtain ⟨keys, hword, houtcome⟩ := word?_of_sendWord? hsent
  obtain ⟨hleft, hreports⟩ := Prod.mk.inj houtcome
  rw [List.map_append, List.map_singleton, obey_append, hfront, obey_singleton, runCommand,
    hcycle, hleft, hreports] at halike hsequence
  rw [cycleAll_concat, ← hnow]
  refine ⟨keys, hword, halike.lastWord, ?_⟩
  rw [hsequence, List.append_cons]
  exact lastSequence?_of_silent _ _ _ fun _ hr => absurd hr List.not_mem_nil

end Engine

end Chordboard
