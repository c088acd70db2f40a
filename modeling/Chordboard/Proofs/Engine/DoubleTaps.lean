import Chordboard.Proofs.Engine.Promotions
import Chordboard.Proofs.Switches.MoveHistory

/-!
# Double taps

A press of a switch that directly follows its release is a double tap: every switch that was sent
and is still down may join the next chord. The switches remember only the switch of the last move,
if that was a release, and whether the moves of this tick held a double tap. What they remember is
what the list of all accepted moves says (`Remembers`).
-/

namespace Chordboard

variable {B n : Nat} {reg : Registry B}

namespace Engine

open Tick Grouping

variable {t : Tick B n}

/-- All the moves that were accepted at some ticks, in their order. -/
def accepted (reg : Registry B) (ts : List (Tick B n)) : List (Fin n × Transition) :=
  ts.flatMap (moves reg)

/-- What the switches remember of the moves between two ticks. -/
structure Remembers (reg : Registry B) (ts : List (Tick B n)) (s : Switches n) : Prop where
  lastReleased : s.grouping.lastReleased = lastReleased? (accepted reg ts)
  doubleTapped : s.grouping.doubleTapped = false

theorem remembers_runInvariant (reg : Registry B) :
    RunInvariant reg (Calm (n := n) reg) fun ts _ => Remembers reg ts where
  prefixClosed := Calm.prefixClosed
  new settings := ⟨rfl, rfl⟩
  tick ts t calm inForce before := by
    constructor
    · have haccepted : accepted reg (ts ++ [t]) = accepted reg ts ++ t.moves reg := by
        simp [accepted]
      rw [grouping_after calm.last, haccepted]
      exact lastReleased_acceptAll t.now before.lastReleased (t.moves reg)
    · rw [grouping_after calm.last]
      rfl
  apply ts settings s settings' before := ⟨before.lastReleased, before.doubleTapped⟩

/-- Sent switches are promoted for two reasons. -/
theorem Remembers.promotes_iff {ts : List (Tick B n)} (calm : t.gaming reg = false)
    (h : Remembers reg ts t.before.switches) :
    t.before.switches.promotes t.now t.down = true ↔
      t.heldRunsOut reg = true ∨ ∃ i, DoubleTap (accepted reg ts) (t.moves reg) i := by
  have recalls : t.before.switches.Recalls (accepted reg ts) := ⟨h.lastReleased, h.doubleTapped⟩
  rw [recalls.promotes_iff, heldRunsOut, moves_of_calm calm]
  rfl

/-- **Double taps are recognised exactly.** In a run without gaming modes list all accepted moves
by tick, and within a tick by switch. At a tick that accepts a press directly after a release of
the same switch, no switch is left as sent by the sample; and where the sample makes a sent switch
held, there was such a press, or the held timer has run out. -/
theorem double_taps_promote {settings : Settings} {inputs : List (Input n)}
    (calm : ∀ t ∈ (fresh B n settings).ticks reg inputs, t.gaming reg = false)
    {front back : List (Tick B n)} (split : (fresh B n settings).ticks reg inputs =
      front ++ t :: back) :
    ((∃ i, DoubleTap (accepted reg front) (t.moves reg) i) →
        ∀ j : Fin n, (t.sampled reg).slots[j].status ≠ .alreadySent) ∧
      ∀ j : Fin n, t.before.switches.slots[j].status = .alreadySent →
        (t.sampled reg).slots[j].status = .held →
          t.heldRunsOut reg = true ∨ ∃ i, DoubleTap (accepted reg front) (t.moves reg) i := by
  obtain ⟨hfront, hcalm⟩ := Calm.cut calm split
  have promotes := ((remembers_runInvariant reg).before split hfront).promotes_iff hcalm
  rw [sampled_of_calm hcalm]
  constructor
  · intro double j
    rw [Switches.slot_updateChorded, if_pos (promotes.2 (Or.inr double))]
    exact Slot.promote_not_alreadySent _
  · intro j sent held
    rw [← promotes]
    by_contra stays
    rw [Switches.slot_updateChorded, if_neg stays] at held
    rw [Slot.status_of_step (Or.inr rfl) held] at sent
    cases sent

/-- Two switches are sent, and one of them is released and pressed again. -/
def tappedTwice : List (Input 2) :=
  [.tick 0 fun _ => true, .tick 10000 fun _ => true, .tick 40000 fun _ => true,
    .tick 41000 (·.val == 0), .tick 51000 (·.val == 0), .tick 52000 fun _ => true,
    .tick 62000 fun _ => true]

/-- One of the seven ticks of `tappedTwice`. Number 4 accepts the release, number 6 the press. -/
def tappedTwiceTick (k : Fin 7) : Tick 1 2 :=
  ((fresh 1 2 .usual).ticks bareRegistry tappedTwice).get (k.cast (by decide))

theorem double_taps_promote_other_switch :
    (tappedTwiceTick 6).before.switches.slots[(0 : Fin 2)].status = .alreadySent ∧
      ((tappedTwiceTick 6).sampled bareRegistry).slots[(0 : Fin 2)].status = .held ∧
      (tappedTwiceTick 6).heldRunsOut bareRegistry = false ∧
      (∃ i, DoubleTap
        (accepted bareRegistry (((fresh 1 2 .usual).ticks bareRegistry tappedTwice).take 6))
        ((tappedTwiceTick 6).moves bareRegistry) i) ∧
      ∀ j : Fin 2, ((tappedTwiceTick 6).sampled bareRegistry).slots[j].status ≠ .alreadySent := by
  have calm : ∀ t ∈ (fresh 1 2 .usual).ticks bareRegistry tappedTwice,
      t.gaming bareRegistry = false := by decide +kernel
  have split : (fresh 1 2 .usual).ticks bareRegistry tappedTwice =
      ((fresh 1 2 .usual).ticks bareRegistry tappedTwice).take 6 ++ tappedTwiceTick 6 :: [] := rfl
  have sent : (tappedTwiceTick 6).before.switches.slots[(0 : Fin 2)].status = .alreadySent := by
    decide +kernel
  have held : ((tappedTwiceTick 6).sampled bareRegistry).slots[(0 : Fin 2)].status = .held := by
    decide +kernel
  have early : (tappedTwiceTick 6).heldRunsOut bareRegistry = false := by decide +kernel
  obtain ⟨promoted, reason⟩ := double_taps_promote calm split
  have double := (reason 0 sent held).resolve_left (by rw [early]; exact Bool.false_ne_true)
  exact ⟨sent, held, early, double, promoted double⟩

end Engine

end Chordboard
