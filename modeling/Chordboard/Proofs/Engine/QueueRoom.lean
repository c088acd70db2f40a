import Chordboard.Proofs.Delivery.Room
import Chordboard.Proofs.Engine.WordReplacement
import Mathlib.Data.List.Infix

/-!
# Room in the queue

A tick makes at most three reports (`length_reports_tick_le`): a command that replaces the last
word makes two, and a batch of releases may be due as well. Going to another mode makes one. So
four places are enough for a tick and a change of mode, and a queue of the smallest capacity
never overflows if the transport empties it between any two ticks (`Prompt`). Changes of mode that
are ordered while there is no tick need places too: more of them than the queue has do not fit
(`modeChanges_overflow`).
-/

namespace Chordboard

variable {B n capacity : Nat} {reg : Registry B}

/-! ## How many reports a step makes -/

namespace Engine

variable {e : Engine B n}

theorem length_reports_setMode_le (mode : Nat) : (e.setMode reg mode).2.length ≤ 1 := by
  unfold setMode
  split
  · exact Nat.le_refl 1
  · exact Nat.zero_le 1

theorem length_reports_control_le (m : ControlMessage) : (e.control reg m).1.2.length ≤ 1 := by
  cases m with
  | setMode mode => exact length_reports_setMode_le mode
  | exit => exact Nat.zero_le 1

theorem length_reports_sendWord? {c : Chord B} {o : Outcome B n} (h : e.sendWord? reg c = some o) :
    o.2.length = 1 := by
  obtain ⟨found, -, rfl⟩ := sendWord?_eq_some_iff.1 h
  rfl

/-- The erasure and the new word. -/
theorem length_reports_cycleLastWord_le (what : Cycle) :
    (e.cycleLastWord reg what).2.length ≤ 2 := by
  unfold cycleLastWord
  cases e.lastWord with
  | none => exact Nat.zero_le 2
  | some last =>
      dsimp only
      cases found : e.sendWord? reg (cycleChord reg what last.chord) with
      | none => exact Nat.le_succ 1
      | some sent =>
          show sent.2.length + 1 ≤ 2
          rw [length_reports_sendWord? found]

theorem length_reports_runCommand_le (c : Command) : (e.runCommand reg c).2.length ≤ 2 := by
  cases c with
  | cycle what => exact length_reports_cycleLastWord_le what
  | releaseAll => exact Nat.le_succ 1
  | toggleSticky mods => exact Nat.le_succ 1
  | setMode mode => exact Nat.le_succ_of_le (length_reports_setMode_le mode)

theorem Dispatched.length_reports_le {c : Chord B} {o : Outcome B n} (d : Dispatched reg e c o) :
    o.2.length ≤ 2 := by
  cases d with
  | blank => exact Nat.zero_le 2
  | noOrder => exact Nat.zero_le 2
  | order => exact length_reports_runCommand_le _
  | mods => exact Nat.le_succ 1
  | keys => exact Nat.le_succ 1
  | word _ _ _ found =>
      rw [length_reports_sendWord? found]
      exact Nat.le_succ 1
  | unmapped => exact Nat.zero_le 2

theorem length_reports_releasePhase_le (now : Nat) (gaming : Bool) :
    (e.releasePhase now gaming).2.length ≤ 1 := by
  unfold releasePhase
  dsimp only
  split
  · exact Nat.le_refl 1
  · exact Nat.zero_le 1

end Engine

theorem Tick.length_reports_le (reg : Registry B) (t : Tick B n) : (t.reports reg).length ≤ 3 := by
  cases mode : t.gaming reg with
  | true =>
      rcases gaming_cases mode with ⟨-, hreports, -⟩ | ⟨-, hreports, -⟩
      · rw [hreports]
        exact Nat.zero_le 3
      · rw [hreports]
        exact Nat.succ_le_succ (Nat.zero_le 2)
  | false =>
      obtain ⟨o, ho, -, hreports⟩ := calm_cases mode
      have hchord : o.2.length ≤ 2 := by
        rcases ho with ⟨-, rfl⟩ | ⟨bits, -, d⟩
        · exact Nat.zero_le 2
        · exact d.length_reports_le
      rw [hreports, List.length_append]
      exact Nat.add_le_add hchord (Engine.length_reports_releasePhase_le t.now false)

/-! ## Engine and transport by turns -/

/-- What happens to an engine and to the queue behind it. -/
inductive Turn (n : Nat) where
  | input (i : Engine.Input n)
  /-- The transport takes events until none is left. -/
  | emptied

namespace Turn

def input? : Turn n → Option (Engine.Input n)
  | .input i => some i
  | .emptied => none

def isTick : Turn n → Bool
  | .input (.tick _ _) => true
  | _ => false

/-- An order from outside to go to a mode. -/
def isSetMode : Turn n → Bool
  | .input (.control (.setMode _)) => true
  | _ => false

/-- A bound on the reports that are made in these turns. -/
def load (turns : List (Turn n)) : Nat :=
  3 * turns.countP isTick + turns.countP isSetMode

theorem load_cons (u : Turn n) (turns : List (Turn n)) :
    load (u :: turns) = load [u] + load turns := by
  unfold load
  rw [List.countP_cons, List.countP_cons, List.countP_singleton, List.countP_singleton]
  omega

/-- Turns one after another, and the queue is not emptied in between. -/
def Unserved (turns stretch : List (Turn n)) : Prop :=
  stretch <:+: turns ∧ ∀ u ∈ stretch, u.input?.isSome

/-- The transport empties the queue between any two ticks, and until it does, nobody orders more
than one change of mode around a tick. -/
structure Paced (turns : List (Turn n)) : Prop where
  ticks : ∀ stretch, Unserved turns stretch → stretch.countP isTick ≤ 1
  setModes : ∀ stretch, Unserved turns stretch → 0 < stretch.countP isTick →
    stretch.countP isSetMode ≤ 1

/-- The transport keeps up: beside that, while there is no tick, nobody orders more changes of
mode than the queue has places before it is emptied. -/
structure Prompt (capacity : Nat) (turns : List (Turn n)) : Prop extends Paced turns where
  idle : ∀ stretch, Unserved turns stretch → stretch.countP isTick = 0 →
    stretch.countP isSetMode ≤ capacity

/-- Which stretches there are can be listed. -/
theorem forall_unserved_iff {turns : List (Turn n)} {p : List (Turn n) → Prop} :
    (∀ stretch, Unserved turns stretch → p stretch) ↔
      ∀ rest ∈ turns.tails, ∀ stretch ∈ rest.inits, (∀ u ∈ stretch, u.input?.isSome) →
        p stretch := by
  constructor
  · intro h rest hrest stretch hstretch inputs
    have hwithin : stretch <:+: turns :=
      ((List.mem_inits ..).1 hstretch).isInfix.trans ((List.mem_tails ..).1 hrest).isInfix
    exact h stretch ⟨hwithin, inputs⟩
  · rintro h stretch ⟨hwithin, inputs⟩
    obtain ⟨rest, hstart, hend⟩ := List.infix_iff_prefix_suffix.1 hwithin
    exact h rest ((List.mem_tails ..).2 hend) stretch ((List.mem_inits ..).2 hstart) inputs

instance (turns : List (Turn n)) (p : List (Turn n) → Prop) [DecidablePred p] :
    Decidable (∀ stretch, Unserved turns stretch → p stretch) :=
  decidable_of_iff _ forall_unserved_iff.symm

instance (turns : List (Turn n)) : Decidable (Paced turns) :=
  decidable_of_iff ((∀ stretch, Unserved turns stretch → stretch.countP isTick ≤ 1) ∧
      ∀ stretch, Unserved turns stretch → 0 < stretch.countP isTick →
        stretch.countP isSetMode ≤ 1)
    ⟨fun h => ⟨h.1, h.2⟩, fun h => ⟨h.ticks, h.setModes⟩⟩

instance (capacity : Nat) (turns : List (Turn n)) : Decidable (Prompt capacity turns) :=
  decidable_of_iff (Paced turns ∧ ∀ stretch, Unserved turns stretch →
      stretch.countP isTick = 0 → stretch.countP isSetMode ≤ capacity)
    ⟨fun h => ⟨h.1, h.2⟩, fun h => ⟨h.toPaced, h.idle⟩⟩

/-- Three reports and one more fit into the smallest queue. -/
theorem Prompt.load_le {turns stretch : List (Turn n)} (h : Prompt capacity turns)
    (least : minQueueCapacity ≤ capacity) (unserved : Unserved turns stretch) :
    load stretch ≤ capacity := by
  have hticks := h.ticks stretch unserved
  unfold load
  by_cases tick : stretch.countP isTick = 0
  · have hidle := h.idle stretch unserved tick
    rw [tick]
    omega
  · have hsetModes := h.setModes stretch unserved (Nat.pos_of_ne_zero tick)
    have hroom : 4 ≤ capacity := least
    omega

/-- There are places for what will be reported until the queue is emptied, beside the `used`
ones, and for what will be reported after that until it is emptied again. -/
structure Affordable (capacity used : Nat) (turns : List (Turn n)) : Prop where
  soon : ∀ stretch, stretch <+: turns → (∀ u ∈ stretch, u.input?.isSome) →
    used + load stretch ≤ capacity
  later : ∀ stretch, Unserved turns stretch → load stretch ≤ capacity

theorem Prompt.affordable {turns : List (Turn n)} (h : Prompt capacity turns)
    (least : minQueueCapacity ≤ capacity) : Affordable capacity 0 turns where
  soon := by
    intro stretch hstart inputs
    rw [Nat.zero_add]
    exact h.load_le least ⟨hstart.isInfix, inputs⟩
  later := by
    intro stretch unserved
    exact h.load_le least unserved

variable {used : Nat} {turns : List (Turn n)}

theorem Unserved.cons {stretch : List (Turn n)} (h : Unserved turns stretch) (u : Turn n) :
    Unserved (u :: turns) stretch :=
  ⟨List.infix_cons h.1, h.2⟩

/-- The reports of an input take up some of the places. -/
theorem Affordable.input {i : Engine.Input n}
    (h : Affordable capacity used (.input i :: turns)) :
    used + load [.input i] ≤ capacity ∧
      Affordable capacity (used + load [.input i]) turns := by
  have hsome : ∀ u ∈ [Turn.input i], u.input?.isSome := by
    intro u hu
    rw [List.mem_singleton.1 hu]
    rfl
  refine ⟨h.soon [.input i] ⟨turns, rfl⟩ hsome, ?_, ?_⟩
  · intro stretch hstart inputs
    rw [Nat.add_assoc, ← load_cons]
    refine h.soon (.input i :: stretch) (List.cons_prefix_cons.2 ⟨rfl, hstart⟩) ?_
    rintro u (_ | ⟨_, hu⟩)
    · rfl
    · exact inputs u hu
  · intro stretch unserved
    exact h.later stretch (unserved.cons _)

/-- Once the queue is emptied, all of its places are free. -/
theorem Affordable.emptied (h : Affordable capacity used (.emptied :: turns)) :
    Affordable capacity 0 turns where
  soon := by
    intro stretch hstart inputs
    have unserved : Unserved turns stretch := ⟨hstart.isInfix, inputs⟩
    rw [Nat.zero_add]
    exact h.later stretch (unserved.cons _)
  later := by
    intro stretch unserved
    exact h.later stretch (unserved.cons _)

end Turn

theorem Engine.length_reports_step_le (e : Engine B n) (i : Engine.Input n) :
    (e.step reg i).2.length ≤ Turn.load [.input i] := by
  cases i with
  | tick now down => exact Tick.length_reports_le reg ⟨e, now, down⟩
  | control m =>
      cases m with
      | setMode mode => exact length_reports_setMode_le mode
      | exit => exact Nat.zero_le _
  | apply settings => exact Nat.zero_le _

/-- The traffic of a queue in these turns. The transport may take events at any time, also
between two reports of one step. -/
inductive Interleaved (reg : Registry B) :
    Engine B n → Delivery capacity → List (Turn n) → List Traffic → Prop where
  | nil {e : Engine B n} {d : Delivery capacity} : Interleaved reg e d [] []
  | input {e : Engine B n} {d : Delivery capacity} {i : Engine.Input n} {turns : List (Turn n)}
      {uses traffic : List Traffic}
      (reported : uses.filterMap Traffic.report? = (e.step reg i).2)
      (later : Interleaved reg (e.step reg i).1 (d.run uses) turns traffic) :
      Interleaved reg e d (.input i :: turns) (uses ++ traffic)
  | emptied {e : Engine B n} {d : Delivery capacity} {k : Nat} {turns : List (Turn n)}
      {traffic : List Traffic}
      (empty : (d.run (List.replicate k .receive)).queue.waiting = [])
      (later : Interleaved reg e (d.run (List.replicate k .receive)) turns traffic) :
      Interleaved reg e d (.emptied :: turns) (List.replicate k .receive ++ traffic)

/-- What is reported in these turns are the reports of the engine's run. -/
theorem Interleaved.reports {e : Engine B n} {d : Delivery capacity} {turns : List (Turn n)}
    {traffic : List Traffic} (h : Interleaved reg e d turns traffic) :
    traffic.filterMap Traffic.report? = (e.run reg (turns.filterMap Turn.input?)).2 := by
  induction h with
  | nil => rfl
  | input reported _ ih =>
      rw [List.filterMap_append, reported, ih]
      rfl
  | @emptied e d k turns traffic _ _ ih =>
      have hnone : (List.replicate k Traffic.receive).filterMap Traffic.report? = [] := by
        rw [List.filterMap_eq_nil_iff]
        intro use huse
        rw [List.eq_of_mem_replicate huse]
        rfl
      rw [List.filterMap_append, hnone, ih]
      rfl

/-- The traffic of these turns if the transport takes nothing in between. -/
def Turn.traffic (reg : Registry B) :
    Engine B n → Delivery capacity → List (Turn n) → List Traffic
  | _, _, [] => []
  | e, d, .input i :: turns =>
      let uses := (e.step reg i).2.map .report
      uses ++ traffic reg (e.step reg i).1 (d.run uses) turns
  | e, d, .emptied :: turns =>
      let uses := List.replicate d.queue.waiting.length .receive
      uses ++ traffic reg e (d.run uses) turns

theorem interleaved_traffic (reg : Registry B) (e : Engine B n) (d : Delivery capacity)
    (turns : List (Turn n)) : Interleaved reg e d turns (Turn.traffic reg e d turns) := by
  induction turns generalizing e d with
  | nil => exact .nil
  | cons u turns ih =>
      cases u with
      | input i =>
          refine .input ?_ (ih _ _)
          rw [List.filterMap_map]
          exact List.filterMap_some
      | emptied =>
          refine .emptied ?_ (ih _ _)
          rw [Delivery.waiting_run_replicate_receive, List.drop_length]

/-! ## Runs -/

/-- Where there are places for what is reported, every report finds room. -/
theorem Interleaved.roomy {e : Engine B n} {d : Delivery capacity} {turns : List (Turn n)}
    {traffic : List Traffic} (room : 0 < capacity) (h : Interleaved reg e d turns traffic)
    {used : Nat} (waiting : d.queue.waiting.length ≤ used)
    (affordable : Turn.Affordable capacity used turns) : d.Roomy traffic := by
  induction h generalizing used with
  | nil => trivial
  | @input e d i turns uses traffic reported _ ih =>
      obtain ⟨hfirst, hrest⟩ := affordable.input
      have hload : used + (uses.filterMap Traffic.report?).length ≤
          used + Turn.load [.input i] := by
        rw [reported]
        exact Nat.add_le_add_left (e.length_reports_step_le i) used
      obtain ⟨hroomy, hused⟩ := Delivery.roomy_of_length_le room waiting (hload.trans hfirst)
      exact Delivery.roomy_append.2 ⟨hroomy, ih (hused.trans hload) hrest⟩
  | @emptied e d k turns traffic empty _ ih =>
      have hnone : (d.run (List.replicate k .receive)).queue.waiting.length ≤ 0 := by
        rw [empty]
        exact Nat.le_refl 0
      exact Delivery.roomy_append.2
        ⟨Delivery.roomy_replicate_receive d k, ih hnone affordable.emptied⟩

namespace Engine

/-- **The smallest queue is large enough.** A tick makes at most three reports, and an order from
outside at most one. So take any run of an engine with a queue that has at least the smallest
capacity. Suppose that the transport empties it between any two ticks, that no more than one
change of mode is ordered around a tick until it does, and that without a tick no more changes are
ordered until it does than the queue has places (`Prompt`). Then no report ever finds the queue
full. What the transport has received, and what waits for it, are then the reports of the run in
their order, but for those that a release of everything has made obsolete. -/
theorem queue_has_room (reg : Registry B) (n : Nat) :
    (∀ (e : Engine B n) (now : Nat) (down : Fin n → Bool), (e.tick reg now down).2.length ≤ 3) ∧
      (∀ (e : Engine B n) (mode : Nat), (e.setMode reg mode).2.length ≤ 1) ∧
      (∀ (e : Engine B n) (m : ControlMessage), (e.control reg m).1.2.length ≤ 1) ∧
      ∀ (settings : Settings) (capacity : Nat) (turns : List (Turn n)) (traffic : List Traffic),
        minQueueCapacity ≤ capacity → Turn.Prompt capacity turns →
        Interleaved reg (fresh B n settings) (Delivery.idle capacity) turns traffic →
        (∀ before r after, traffic = before ++ .report r :: after →
          ((Delivery.idle capacity).run before).queue.waiting.length < capacity) ∧
        ∃ parcels : List (Parcel capacity),
          parcels.map Parcel.event = ((Delivery.idle capacity).run traffic).received ++
            ((Delivery.idle capacity).run traffic).queue.waiting ∧
          parcels.flatMap Parcel.reports =
            ((fresh B n settings).run reg (turns.filterMap Turn.input?)).2 ∧
          ∀ p ∈ parcels, (∃ e, p = .kept e) ∨ p.reports.getLast? = some .releaseAll := by
  refine ⟨fun e now down => Tick.length_reports_le reg ⟨e, now, down⟩,
    fun e mode => length_reports_setMode_le mode, fun e m => length_reports_control_le m, ?_⟩
  intro settings capacity turns traffic least prompt interleaved
  have room : 0 < capacity := Nat.lt_of_lt_of_le (by decide) least
  have hroomy : (Delivery.idle capacity).Roomy traffic :=
    interleaved.roomy room (Nat.le_refl 0) (prompt.affordable least)
  constructor
  · rintro before r after rfl
    exact hroomy.waiting_lt
  · have hdelivery : ((Ledger.blank capacity).run traffic).delivery =
        (Delivery.idle capacity).run traffic := Ledger.delivery_run room _ traffic
    refine ⟨((Ledger.blank capacity).run traffic).received ++
      ((Ledger.blank capacity).run traffic).waiting, ?_, ?_, ?_⟩
    · rw [List.map_append, ← hdelivery]
      rfl
    · rw [← interleaved.reports]
      exact Ledger.reports_run (Ledger.blank capacity) traffic
    · exact Delivery.Roomy.kept_or_cleared (l := Ledger.blank capacity) room hroomy nofun

/-- A word is sent. Its switch goes up while that of the cycle command goes down, so in the last
tick the word is replaced and releases are due. A change of mode follows. -/
def fourReports : List (Turn 3) :=
  [.input (.tick 0 (·.val == 0)), .emptied, .input (.tick 10000 (·.val == 0)), .emptied,
    .input (.tick 40000 (·.val == 0)), .emptied, .input (.tick 50000 (·.val == 1)), .emptied,
    .input (.tick 60000 (·.val == 1)), .emptied, .input (.tick 90000 (·.val == 1)),
    .input (.control (.setMode 0))]

def fourReportsDelivery : Delivery 4 :=
  (Delivery.idle 4).run (Turn.traffic spacedWord (fresh 1 3 .usual) (Delivery.idle 4) fourReports)

/-- The last tick and the change of mode fill all four places of the queue, and nothing is given
up. -/
theorem fourReports_have_room :
    start spacedWord 3 .usual = .ok (fresh 1 3 .usual) ∧ minQueueCapacity ≤ 4 ∧
      Turn.Prompt 4 fourReports ∧ fourReportsDelivery.received = [spaced] ∧
      fourReportsDelivery.queue.waiting = [eraseEvent 2, unspaced, .release, .release] ∧
      ∃ parcels : List (Parcel 4),
        parcels.map Parcel.event =
          fourReportsDelivery.received ++ fourReportsDelivery.queue.waiting ∧
        ∀ p ∈ parcels, (∃ e, p = .kept e) ∨ p.reports.getLast? = some .releaseAll := by
  have least : minQueueCapacity ≤ 4 := by decide
  have prompt : Turn.Prompt 4 fourReports := by decide +kernel
  obtain ⟨-, -, -, hruns⟩ := queue_has_room spacedWord 3
  obtain ⟨-, parcels, hevents, -, hkept⟩ := hruns .usual 4 fourReports _ least prompt
    (interleaved_traffic spacedWord (fresh 1 3 .usual) (Delivery.idle 4) fourReports)
  exact ⟨rfl, least, prompt, by decide +kernel, by decide +kernel, parcels, hevents, hkept⟩

/-- Between two ticks five changes of mode are ordered before the queue is emptied. -/
def modeChanges : List (Turn 1) :=
  [.input (.tick 0 fun _ => false), .emptied] ++
    List.replicate 5 (.input (.control (.setMode 0))) ++
      [.emptied, .input (.tick 1000 fun _ => false)]

/-- The transport takes nothing between these changes. -/
def modeChangesTraffic : List Traffic :=
  Turn.traffic spacedWord (fresh 1 1 .usual) (Delivery.idle 4) modeChanges

/-- That the transport keeps up with the ticks is not enough: the fifth release of `modeChanges`
finds a queue of four places full. -/
theorem modeChanges_overflow :
    ¬∀ (B n : Nat) (reg : Registry B) (settings : Settings) (capacity : Nat)
      (turns : List (Turn n)) (traffic : List Traffic),
      start reg n settings = .ok (fresh B n settings) → minQueueCapacity ≤ capacity →
      Turn.Paced turns →
      Interleaved reg (fresh B n settings) (Delivery.idle capacity) turns traffic →
      ∀ before r after, traffic = before ++ .report r :: after →
        ((Delivery.idle capacity).run before).queue.waiting.length < capacity := by
  intro room
  have paced : Turn.Paced modeChanges := by decide +kernel
  have split : modeChangesTraffic =
      List.replicate 4 (.report (.event .release)) ++ .report (.event .release) :: [.receive] := by
    decide +kernel
  have full : ((Delivery.idle 4).run
      (List.replicate 4 (.report (.event .release)))).queue.waiting.length = 4 := by
    decide +kernel
  have hroom := room 1 1 spacedWord .usual 4 modeChanges _ rfl (by decide) paced
    (interleaved_traffic _ _ _ _) _ _ _ split
  rw [full] at hroom
  exact Nat.lt_irrefl 4 hroom

end Engine

end Chordboard
