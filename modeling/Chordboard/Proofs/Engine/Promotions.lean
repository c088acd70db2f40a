import Mathlib.Data.List.Chain
import Chordboard.Proofs.Engine.StablePress
import Chordboard.Proofs.Engine.TimerHistory

/-!
# Promotions of sent switches

A switch that stays down after its chord was sent may join another chord once the held timer has
run out. That timer is shared and runs out once: if it ran out while a switch still waits for its
chord, nothing would be left to promote that switch later. With scans close enough this does not
happen (`Waits`): the chord timer of a switch that waits was started no later than the held timer,
and the scan that finds it run out comes before the held timer has.
-/

namespace Chordboard

variable {B n : Nat} {reg : Registry B}

namespace Tick

/-! ## The held timer at one tick -/

/-- The tick accepts a press or a release. -/
def moving (reg : Registry B) (t : Tick B n) : Bool := !(t.moves reg).isEmpty

/-- The tick finds that the held timer has run out. -/
def heldRunsOut (reg : Registry B) (t : Tick B n) : Bool :=
  (t.before.switches.grouping.acceptAll t.now (t.moves reg)).heldTimer.isDone t.now

variable {t : Tick B n} {ts : List (Tick B n)}

theorem heldTimer_accepted (t : Tick B n) :
    (t.before.switches.grouping.acceptAll t.now (t.moves reg)).heldTimer =
      if t.moving reg then t.before.switches.grouping.heldTimer.start t.now
      else t.before.switches.grouping.heldTimer := by
  rw [Grouping.heldTimer_acceptAll, moving]
  cases t.moves reg <;> rfl

/-- The tick asks the held timer once its moves have been taken note of. -/
theorem heldTimer_after (calm : t.gaming reg = false) :
    (t.after reg).switches.grouping.heldTimer =
      ((t.before.switches.grouping.acceptAll t.now (t.moves reg)).heldTimer.take t.now).2 := by
  rw [grouping_after calm]
  rfl

theorem moves_eq_nil_of_not_moving (h : t.moving reg = false) : t.moves reg = [] := by
  simpa [moving] using h

/-- Without a move a slot keeps its status until the sent switches are promoted. -/
theorem step_of_not_moving (calm : t.gaming reg = false) (still : t.moves reg = [])
    (i : Fin n) :
    (t.before.switches.slots[i].step t.now (t.down i)).1.status =
      t.before.switches.slots[i].status := by
  have hnone : (t.before.switches.slots[i].step t.now (t.down i)).2 = none := by
    refine Option.eq_none_iff_forall_ne_some.2 fun m hm => ?_
    rw [← Switches.mem_transitions, ← moves_of_calm calm, still] at hm
    cases hm
  rw [Slot.status_step, hnone]

/-- A switch that is sent after the sample was sent before, and the held timer has not run
out. -/
theorem alreadySent_of_sampled (calm : t.gaming reg = false) {i : Fin n}
    (h : (t.sampled reg).slots[i].status = .alreadySent) :
    t.before.switches.slots[i].status = .alreadySent ∧ t.heldRunsOut reg = false := by
  rw [sampled_of_calm calm, Switches.slot_updateChorded] at h
  split at h
  · exact absurd h (Slot.promote_not_alreadySent _)
  · rename_i hpromotes
    refine ⟨Slot.status_of_step (Or.inl rfl) h, ?_⟩
    rw [Switches.promotes, ← moves_of_calm calm] at hpromotes
    exact (Bool.or_eq_false_iff.1 (Bool.eq_false_iff.2 hpromotes)).1

/-- After the tick a switch that is sent was so before its chord, or is sent by the chord. -/
theorem alreadySent_of_after (calm : t.gaming reg = false) {i : Fin n}
    (h : (t.after reg).switches.slots[i].status = .alreadySent) :
    (t.sampled reg).slots[i].status = .alreadySent ∨
      (t.sampled reg).slots[i].status = .pressed := by
  rcases slots_after calm i with ⟨-, hafter⟩ | ⟨-, hafter | hafter⟩
  · rw [hafter] at h
    exact Or.inl h
  · rw [hafter] at h
    exact Slot.alreadySent_of_markSent h
  · rw [hafter] at h
    exact absurd h (Slot.reuse_not_alreadySent _)

/-- What the sample made held stays so. -/
theorem held_after (calm : t.gaming reg = false) {i : Fin n}
    (h : (t.sampled reg).slots[i].status = .held) :
    (t.after reg).switches.slots[i].status = .held := by
  rcases slots_after calm i with ⟨-, hafter⟩ | ⟨-, hafter | hafter⟩
  · rw [hafter]
    exact h
  · rw [hafter]
    exact Slot.held_markSent h
  · rw [hafter]
    exact Slot.held_reuse (Slot.held_markSent h)

end Tick

namespace Engine

open Tick

variable {t : Tick B n} {ts : List (Tick B n)} {chord held : Nat}

/-! ## The last move -/

/-- The held timer tells when the last move was accepted, unless it has run out since. -/
def HeldTimed (reg : Registry B) (ts : List (Tick B n)) (s : Switches n) : Prop :=
  s.grouping.heldTimer.StartedBy Settings.held (last? (moving reg) (since (heldRunsOut reg) ts))

theorem heldTimed_runInvariant (reg : Registry B) :
    RunInvariant reg (Calm (n := n) reg) fun ts _ => HeldTimed reg ts where
  prefixClosed := Calm.prefixClosed
  new settings := rfl
  tick ts t calm inForce before := by
    show Timer.StartedBy _ _ _
    rw [heldTimer_after calm.last]
    exact (Timer.StartedBy.concat before inForce.held (heldTimer_accepted t)).take rfl
  apply ts settings s settings' before := before

/-! ## Switches that wait for their chord -/

/-- The chord timer has not run out by `now`, and was started no later than the held timer. -/
def Waits (chord held now : Nat) (g : Grouping n) : Prop :=
  ∃ pressed moved, g.chordTimer.state = .running pressed chord ∧
    g.heldTimer.state = .running moved held ∧ pressed ≤ moved ∧ moved ≤ now ∧
      now < pressed + chord

/-- The ticks are in modes with chords, with the same delays, in the order of their times, and so
close that the held timer cannot run out between two of them while a chord is due. -/
structure Close (reg : Registry B) (chord held : Nat) (ts : List (Tick B n)) : Prop where
  calm : Calm reg ts
  fixed : ∀ t ∈ ts, t.before.settings.chord = chord ∧ t.before.settings.held = held
  near : ts.IsChain fun s t => s.now ≤ t.now ∧ t.now - s.now ≤ held - chord

theorem Close.prefixClosed (ts ts' : List (Tick B n)) (h : Close reg chord held (ts ++ ts')) :
    Close reg chord held ts where
  calm := h.calm.prefixClosed
  fixed t ht := h.fixed t (List.mem_append_left _ ht)
  near := h.near.left_of_append

/-- What is known of the switches after the ticks `ts`. -/
structure SentTimed (reg : Registry B) (chord held : Nat) (ts : List (Tick B n))
    (s : Switches n) : Prop where
  heldOn : ∀ i : Fin n, s.slots[i].status = .alreadySent →
    s.grouping.heldTimer.isDisabled = false
  waits : ∀ i : Fin n, s.slots[i].status = .pressed →
    ∃ last, ts.getLast? = some last ∧ Waits chord held last.now s.grouping

/-- Ticks that follow one another. -/
theorem Close.next {last : Tick B n} (close : Close reg chord held (ts ++ [t]))
    (hlast : ts.getLast? = some last) : last.now ≤ t.now ∧ t.now - last.now ≤ held - chord :=
  (List.isChain_append.1 close.near).2.2 last hlast t rfl

theorem Waits.settle {g : Grouping n} {now : Nat} (shorter : chord < held)
    (h : Waits chord held now g) : Waits chord held now (g.settle now) := by
  obtain ⟨pressed, moved, hchord, hheld, order, hnow, early⟩ := h
  have chordEarly : g.chordTimer.isDone now = false := by
    rw [Timer.isDone_of_running hchord]
    simp only [decide_eq_false_iff_not]
    omega
  have heldEarly : g.heldTimer.isDone now = false := by
    rw [Timer.isDone_of_running hheld]
    simp only [decide_eq_false_iff_not]
    omega
  refine ⟨pressed, moved, ?_, ?_, order, hnow, early⟩
  · show (g.chordTimer.take now).2.state = _
    rw [Timer.take_snd, chordEarly]
    exact hchord
  · show (g.heldTimer.take now).2.state = _
    rw [Timer.take_snd, heldEarly]
    exact hheld

theorem isDone_or_waits {g : Grouping n} {now pressed moved : Nat}
    (hchord : g.chordTimer.state = .running pressed chord)
    (hheld : g.heldTimer.state = .running moved held) (order : pressed ≤ moved)
    (hnow : moved ≤ now) : g.chordTimer.isDone now = true ∨ Waits chord held now g := by
  by_cases due : chord ≤ now - pressed
  · rw [Timer.isDone_of_running hchord]
    exact Or.inl (decide_eq_true due)
  · exact Or.inr ⟨pressed, moved, hchord, hheld, order, hnow, by omega⟩

/-- A switch that is pressed though no press is accepted waits since an earlier tick, and this one
comes before the held timer has run out. -/
theorem SentTimed.running (shorter : chord < held) (close : Close reg chord held (ts ++ [t]))
    (h : SentTimed reg chord held ts t.before.switches) {i : Fin n}
    (pressed : (t.sampled reg).slots[i].status = .pressed)
    (silent : ∀ m ∈ t.moves reg, m.2 ≠ .press) :
    ∃ start moved, t.before.switches.grouping.chordTimer.state = .running start chord ∧
      t.before.switches.grouping.heldTimer.state = .running moved held ∧ start ≤ moved ∧
        moved ≤ t.now ∧ t.now < moved + held := by
  have hbefore : t.before.switches.slots[i].status = .pressed := by
    rcases (sampled_pressed_iff close.calm.last).1 pressed with hbefore | hpress
    · exact hbefore
    · exact absurd rfl (silent _ (mem_presses.1 hpress))
  obtain ⟨last, hlast, start, moved, hchord, hheld, order, hmoved, early⟩ := h.waits i hbefore
  obtain ⟨later, near⟩ := close.next hlast
  exact ⟨start, moved, hchord, hheld, order, by omega, by omega⟩

/-- Once the moves of a tick have been taken note of, the held timer runs on if a switch is
pressed, and the switch has a chord at this tick or waits on. -/
theorem SentTimed.accepted (shorter : chord < held) (close : Close reg chord held (ts ++ [t]))
    (inForce : t.before.switches.InForce t.before.settings)
    (h : SentTimed reg chord held ts t.before.switches) {i : Fin n}
    (pressed : (t.sampled reg).slots[i].status = .pressed) :
    ∃ moved, (t.before.switches.grouping.acceptAll t.now (t.moves reg)).heldTimer.state =
        .running moved held ∧ t.now < moved + held ∧
      ((t.before.switches.grouping.acceptAll t.now (t.moves reg)).chordTimer.isDone t.now = true ∨
        Waits chord held t.now (t.before.switches.grouping.acceptAll t.now (t.moves reg))) := by
  obtain ⟨hchord, hheld⟩ := close.fixed t (List.mem_append_right _ List.mem_cons_self)
  cases moving : t.moving reg with
  | false =>
      have hmoves := moves_eq_nil_of_not_moving moving
      obtain ⟨start, moved, hstart, hmoved, order, hnow, early⟩ :=
        h.running shorter close pressed fun m hm => by simp [hmoves] at hm
      rw [hmoves, Grouping.acceptAll_nil]
      exact ⟨moved, hmoved, early, isDone_or_waits hstart hmoved order hnow⟩
  | true =>
      have hmoved : (t.before.switches.grouping.acceptAll t.now (t.moves reg)).heldTimer.state =
          .running t.now held := by
        rw [heldTimer_accepted, moving, ← hheld, ← inForce.held]
        rfl
      refine ⟨t.now, hmoved, by omega, ?_⟩
      -- What the chord timer does is told by the last press or tap.
      cases hloud : Grouping.lastLoud? (t.moves reg) with
      | none =>
          have releases := Grouping.lastLoud?_eq_none_iff.1 hloud
          obtain ⟨start, moved, hstart, -, order, hnow, -⟩ :=
            h.running shorter close pressed fun m hm => by simp [releases m hm]
          rw [← Grouping.chordTimer_acceptAll_of_releases releases] at hstart
          exact isDone_or_waits hstart hmoved (order.trans hnow) (Nat.le_refl _)
      | some m =>
          obtain ⟨j, move⟩ := m
          cases move with
          | tap =>
              rw [Grouping.chordTimer_acceptAll, hloud]
              exact Or.inl rfl
          | press =>
              have hpressed : (t.before.switches.grouping.acceptAll t.now
                  (t.moves reg)).chordTimer.state = .running t.now chord := by
                rw [Grouping.chordTimer_acceptAll, hloud, ← hchord, ← inForce.chord]
                rfl
              exact isDone_or_waits hpressed hmoved (Nat.le_refl _) (Nat.le_refl _)
          | release => exact absurd rfl (Grouping.mem_of_lastLoud? hloud).2

/-- A switch that a tick leaves as sent was so before, and then the held timer has not run out;
or it was sent by the chord of the tick, and then the held timer runs on. -/
theorem SentTimed.heldOn_after (shorter : chord < held) (close : Close reg chord held (ts ++ [t]))
    (inForce : t.before.switches.InForce t.before.settings)
    (h : SentTimed reg chord held ts t.before.switches) {i : Fin n}
    (sent : (t.after reg).switches.slots[i].status = .alreadySent) :
    (t.after reg).switches.grouping.heldTimer.isDisabled = false := by
  have calm := close.calm.last
  rw [heldTimer_after calm, Timer.take_snd]
  rcases alreadySent_of_after calm sent with hsent | hpressed
  · obtain ⟨hbefore, early⟩ := alreadySent_of_sampled calm hsent
    rw [heldRunsOut] at early
    rw [early, if_neg Bool.false_ne_true, heldTimer_accepted]
    split
    · rfl
    · exact h.heldOn i hbefore
  · obtain ⟨moved, hmoved, early, -⟩ := h.accepted shorter close inForce hpressed
    have notDone : ¬(t.before.switches.grouping.acceptAll t.now
        (t.moves reg)).heldTimer.isDone t.now = true := by
      rw [Timer.isDone_of_running hmoved, decide_eq_true_iff]
      omega
    rw [if_neg notDone]
    exact Timer.isDisabled_of_running hmoved

/-- A switch that a tick leaves pressed had no chord at the tick. -/
theorem SentTimed.waits_after (shorter : chord < held) (close : Close reg chord held (ts ++ [t]))
    (inForce : t.before.switches.InForce t.before.settings)
    (h : SentTimed reg chord held ts t.before.switches) {i : Fin n}
    (pressed : (t.after reg).switches.slots[i].status = .pressed) :
    Waits chord held t.now (t.after reg).switches.grouping := by
  have calm := close.calm.last
  obtain ⟨nochord, hpressed⟩ := (after_pressed_iff calm).1 pressed
  obtain ⟨-, -, -, hdone | hwaits⟩ := h.accepted shorter close inForce hpressed
  · rw [← sampled_chordTimer calm, (chord?_eq_none_iff calm).1 nochord] at hdone
    cases hdone
  · rw [grouping_after calm]
    exact hwaits.settle shorter

theorem sentTimed_runInvariant (reg : Registry B) (shorter : chord < held) :
    RunInvariant reg (Close (n := n) reg chord held) fun ts _ => SentTimed reg chord held ts where
  prefixClosed := Close.prefixClosed
  new settings := by
    constructor <;> intro i h <;> simp [Switches.new, Slot.new] at h
  tick ts t close inForce before := by
    constructor
    · intro i sent
      exact before.heldOn_after shorter close inForce sent
    · intro i pressed
      exact ⟨t, List.getLast?_concat, before.waits_after shorter close inForce pressed⟩
  apply ts settings s settings' before := by
    have hstatus (i : Fin n) : (s.applySettings settings').slots[i].status = s.slots[i].status := by
      simp [Switches.applySettings]
    constructor
    · intro i sent
      exact before.heldOn i ((hstatus i).symm.trans sent)
    · intro i pressed
      exact before.waits i ((hstatus i).symm.trans pressed)

/-! ## Promotions -/

/-- The held timer has run out at a tick that is late enough after the last move, if it is on. -/
theorem heldRunsOut_of_late {front : List (Tick B n)}
    (timed : HeldTimed reg front t.before.switches)
    (on : t.before.switches.grouping.heldTimer.isDisabled = false)
    (fixed : ∀ s ∈ front, s.before.settings.held = held) (still : t.moves reg = [])
    (late : ∀ l, last? (moving reg) front = some l → l.now + held ≤ t.now) :
    t.heldRunsOut reg = true := by
  obtain ⟨l, hlast, running⟩ := timed.exists_of_on on
  have hl := last?_of_since hlast
  rw [fixed l (mem_of_last? hl).1] at running
  have := late l hl
  rw [heldRunsOut, still, Grouping.acceptAll_nil, Timer.isDone_of_running running,
    decide_eq_true_iff]
  omega

theorem held_of_heldRunsOut (calm : t.gaming reg = false) (still : t.moves reg = [])
    (out : t.heldRunsOut reg = true) {i : Fin n}
    (sent : t.before.switches.slots[i].status = .alreadySent) :
    (t.after reg).switches.slots[i].status = .held := by
  have promotes : t.before.switches.promotes t.now t.down = true := by
    rw [heldRunsOut, moves_of_calm calm] at out
    rw [Switches.promotes, out, Bool.true_or]
  refine held_after calm ?_
  rw [sampled_of_calm calm, Switches.slot_updateChorded, if_pos promotes]
  exact Slot.status_promote_of_alreadySent ((step_of_not_moving calm still i).trans sent)

/-- **Sent switches are always promoted.** In a run without gaming modes and with fixed delays, of
which the chord delay is the shorter one, let the ticks come in the order of their times and each
at most the difference of the two delays after the one before. Then the held timer is on whenever
some switch is sent. So a tick that accepts no move, and comes at least the held delay after the
last move accepted, finds every switch that is sent and leaves it held. -/
theorem sent_promoted {settings : Settings} {inputs : List (Input n)} (shorter : chord < held)
    (close : Close reg chord held ((fresh B n settings).ticks reg inputs)) :
    (∀ earlier later, inputs = earlier ++ later → ∀ i : Fin n,
        ((fresh B n settings).run reg earlier).1.switches.slots[i].status = .alreadySent →
          ((fresh B n settings).run reg earlier).1.switches.grouping.heldTimer.isDisabled =
            false) ∧
      ∀ front t back, (fresh B n settings).ticks reg inputs = front ++ t :: back →
        t.moves reg = [] → (∀ l, last? (moving reg) front = some l → l.now + held ≤ t.now) →
          ∀ i : Fin n, t.before.switches.slots[i].status = .alreadySent →
            (t.after reg).switches.slots[i].status = .held := by
  constructor
  · rintro earlier later rfl i sent
    rw [ticks_append] at close
    exact ((sentTimed_runInvariant reg shorter).run settings earlier
      (close.prefixClosed _ _)).heldOn i sent
  · intro front t back split still late i sent
    obtain ⟨-, calm⟩ := close.calm.cut split
    rw [split] at close
    have hfront := close.prefixClosed front (t :: back)
    have on := ((sentTimed_runInvariant reg shorter).before split hfront).heldOn i sent
    have timed := (heldTimed_runInvariant reg).before split hfront.calm
    exact held_of_heldRunsOut calm still
      (heldRunsOut_of_late timed on (fun s hs => (hfront.fixed s hs).2) still late) sent

/-- A switch that stays down after its chord, with the last tick as late as it may come. -/
def resting : List (Input 1) :=
  [(0, true), (10000, true), (40000, true), (310000, true)].map fun (now, down) =>
    .tick now fun _ => down

def restingTick (k : Fin 4) : Tick 1 1 :=
  ((fresh 1 1 .usual).ticks bareRegistry resting).get (k.cast (by decide +kernel))

theorem sent_promoted_of_resting :
    (((fresh 1 1 .usual).run bareRegistry
        (resting.take 3)).1.switches.grouping.heldTimer.isDisabled = false) ∧
      (restingTick 3).before.switches.slots[(0 : Fin 1)].status = .alreadySent ∧
      ((restingTick 3).after bareRegistry).switches.slots[(0 : Fin 1)].status = .held := by
  have calm : ∀ t ∈ (fresh 1 1 .usual).ticks bareRegistry resting,
      t.gaming bareRegistry = false := by decide +kernel
  have close : Close bareRegistry 30000 300000 ((fresh 1 1 .usual).ticks bareRegistry resting) :=
    ⟨calm, by decide +kernel, by decide +kernel⟩
  have split : (fresh 1 1 .usual).ticks bareRegistry resting =
      ((fresh 1 1 .usual).ticks bareRegistry resting).take 3 ++ restingTick 3 :: [] := rfl
  have hlast : last? (moving bareRegistry)
      (((fresh 1 1 .usual).ticks bareRegistry resting).take 3) = some (restingTick 1) := by
    with_unfolding_all rfl
  have sent : (restingTick 3).before.switches.slots[(0 : Fin 1)].status = .alreadySent := by
    decide +kernel
  obtain ⟨on, promoted⟩ := sent_promoted (by decide) close
  refine ⟨on _ _ (List.take_append_drop 3 resting).symm 0 (by decide +kernel), sent, ?_⟩
  refine promoted _ _ _ split (by decide +kernel) ?_ 0 sent
  intro l hl
  rw [hlast] at hl
  cases hl
  decide +kernel

/-- With the ticks further apart the held timer may run out while a switch still waits, and then
the switch is not promoted until the next move. -/
example :
    (sampledTicks [(0, true), (10000, true), (310000, true), (700000, true)]).map
        (fun t => ((t.after bareRegistry).switches.slots[(0 : Fin 1)].status,
          (t.after bareRegistry).switches.grouping.heldTimer.isDisabled)) =
      [(.notPressed, true), (.pressed, false), (.alreadySent, true), (.alreadySent, true)] := by
  decide +kernel

end Engine

end Chordboard
