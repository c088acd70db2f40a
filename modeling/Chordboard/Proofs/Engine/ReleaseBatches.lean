import Chordboard.Proofs.Engine.StablePress
import Chordboard.Proofs.Engine.TimerHistory

/-!
# Batches of releases

Releases that follow one another within the chord delay are reported together. Every release that
is accepted, a tap included, starts the release timer anew, and the tick that finds it run out
reports and takes it. So a tick reports releases exactly if some were accepted since the last
report, and the last of them is as long ago as the chord delay that was in force for it
(`releases_batched`).
-/

namespace Chordboard

variable {B n : Nat} {reg : Registry B}

namespace Tick

/-- The tick accepts a release or a tap. -/
def releases (reg : Registry B) (t : Tick B n) : Bool :=
  (t.moves reg).any fun m => m.2 != .press

/-- What the tick does before it looks for releases. -/
def pressed (reg : Registry B) (t : Tick B n) : Engine.Outcome B n :=
  (t.before.sample t.now (t.gaming reg) t.down).pressPhase reg t.now (t.gaming reg)

/-- What the tick reports at its end. -/
def releaseReports (reg : Registry B) (t : Tick B n) : List Report :=
  ((t.pressed reg).1.releasePhase t.now (t.gaming reg)).2

def reportsReleases (reg : Registry B) (t : Tick B n) : Bool :=
  !(t.releaseReports reg).isEmpty

variable {t : Tick B n}

theorem reports_eq (reg : Registry B) (t : Tick B n) :
    t.reports reg = (t.pressed reg).2 ++ t.releaseReports reg := rfl

/-- No chord touches the release timer. -/
theorem releaseTimer_pressed (calm : t.gaming reg = false) :
    (t.pressed reg).1.switches.grouping.releaseTimer =
      (t.before.switches.grouping.acceptAll t.now (t.moves reg)).releaseTimer := by
  have hsampled : (t.sampled reg).grouping.releaseTimer =
      (t.before.switches.grouping.acceptAll t.now (t.moves reg)).releaseTimer := by
    rw [sampled_of_calm calm, moves_of_calm calm, Switches.releaseTimer_updateChorded]
  rw [← hsampled, pressed]
  cases hchord : t.chord? reg with
  | none => rw [pressPhase_of_no_chord calm hchord]
  | some bits =>
      rw [pressPhase_of_chord hchord]
      have hsending : (t.sending reg).switches.grouping.releaseTimer =
          (t.sampled reg).grouping.releaseTimer := by
        rw [sending_of_calm calm (Option.isSome_iff_exists.2 ⟨bits, hchord⟩)]
      rw [← hsending]
      rcases (Engine.dispatched_dispatch reg (t.sending reg)
        (Chord.ofBits t.before.mode bits)).switches with h | ⟨c, h⟩
      · rw [h]
      · rw [h]
        rfl

theorem releaseReports_eq (calm : t.gaming reg = false) :
    t.releaseReports reg =
      if (t.before.switches.grouping.acceptAll t.now (t.moves reg)).releaseTimer.isDone t.now then
        [.event (t.after reg).releaseEvent]
      else [] := by
  rw [← releaseTimer_pressed calm, ← Timer.take_fst]
  have hreports : t.releaseReports reg =
      if ((t.pressed reg).1.switches.releaseDue t.now (t.gaming reg)).1 then
        [.event (t.after reg).releaseEvent]
      else [] := rfl
  rw [hreports, calm]
  rfl

theorem reportsReleases_eq (calm : t.gaming reg = false) :
    t.reportsReleases reg =
      (t.before.switches.grouping.acceptAll t.now (t.moves reg)).releaseTimer.isDone t.now := by
  rw [reportsReleases, releaseReports_eq calm]
  split <;> simp_all

end Tick

namespace Engine

open Tick

/-! ## The invariant -/

/-- The release timer tells when the last release was accepted that was not reported yet. -/
def Batched (reg : Registry B) (ts : List (Tick B n)) (s : Switches n) : Prop :=
  s.grouping.releaseTimer.StartedBy Settings.chord
    (last? (releases reg) (since (reportsReleases reg) ts))

/-- The same once the moves of a tick have been taken note of. -/
theorem Batched.accepted {ts : List (Tick B n)} {t : Tick B n}
    (h : Batched reg ts t.before.switches) (inForce : t.before.switches.InForce t.before.settings) :
    (t.before.switches.grouping.acceptAll t.now (t.moves reg)).releaseTimer.StartedBy
      Settings.chord (last? (releases reg) (since (reportsReleases reg) ts ++ [t])) :=
  Timer.StartedBy.concat h inForce.release (Grouping.releaseTimer_acceptAll ..)

theorem batched_runInvariant (reg : Registry B) :
    RunInvariant reg (Calm (n := n) reg) fun ts _ => Batched reg ts where
  prefixClosed := Calm.prefixClosed
  new settings := rfl
  tick ts t calm inForce before := by
    have hafter : (t.after reg).switches.grouping.releaseTimer =
        ((t.before.switches.grouping.acceptAll t.now (t.moves reg)).releaseTimer.take t.now).2 := by
      rw [grouping_after calm.last]
      rfl
    show Timer.StartedBy _ _ _
    rw [hafter]
    exact (before.accepted inForce).take (reportsReleases_eq calm.last)
  apply ts settings s settings' before := before

/-! ## Reports -/

/-- **Releases are batched, and each batch is reported once.** In a run without gaming modes, at
any times and with any changes of settings, a tick ends with a report of releases exactly if some
release was accepted since the tick that made the last such report, and at least the chord delay
in force at the last release accepted has passed since then. What is reported is a release, or the
hold of the sticky modifiers. -/
theorem releases_batched {settings : Settings} {inputs : List (Input n)}
    (calm : ∀ t ∈ (fresh B n settings).ticks reg inputs, t.gaming reg = false)
    {front back : List (Tick B n)} {t : Tick B n}
    (split : (fresh B n settings).ticks reg inputs = front ++ t :: back) :
    t.reports reg = (t.pressed reg).2 ++ t.releaseReports reg ∧
      (t.releaseReports reg = [] ∨ t.releaseReports reg = [.event (t.after reg).releaseEvent]) ∧
      (t.reportsReleases reg = true ↔
        ∃ r, last? (releases reg) (since (reportsReleases reg) front ++ [t]) = some r ∧
          r.before.settings.chord ≤ t.now - r.now) := by
  obtain ⟨hfront, hcalm⟩ := Calm.cut calm split
  have hbatched : Batched reg front t.before.switches :=
    (batched_runInvariant reg).before split hfront
  refine ⟨reports_eq reg t, ?_, ?_⟩
  · rw [releaseReports_eq hcalm]
    split
    · exact Or.inr rfl
    · exact Or.inl rfl
  · rw [reportsReleases_eq hcalm]
    exact (hbatched.accepted (inForce_before split)).isDone_iff t.now

/-- A quick tap. Its chord is sent at 22 ms, and at 33 ms the switch is released for good. -/
def releasedTap : List (Tick 1 1) :=
  sampledTicks [(0, true), (10000, true), (12000, false), (22000, false), (23000, false),
    (33000, false), (52000, false), (63000, false)]

/-- One of the eight ticks of `releasedTap`. -/
def releasedTapTick (k : Fin 8) : Tick 1 1 :=
  releasedTap.get (k.cast (by decide +kernel))

/-- The tap counts as a release, and would be reported after the chord delay of 30 ms. But the
release that follows puts the report off, and there is one for both. -/
theorem releases_batched_after_tap :
    (releasedTapTick 3).moves bareRegistry = [(0, .tap)] ∧
      (releasedTapTick 5).moves bareRegistry = [(0, .release)] ∧
      (releasedTapTick 6).reportsReleases bareRegistry = false ∧
      (releasedTapTick 7).reportsReleases bareRegistry = true := by
  have calm : ∀ t ∈ releasedTap, t.gaming bareRegistry = false := by decide +kernel
  have split : releasedTap = releasedTap.take 7 ++ releasedTapTick 7 :: [] := rfl
  have hlast : last? (releases bareRegistry)
      (since (reportsReleases bareRegistry) (releasedTap.take 7) ++ [releasedTapTick 7]) =
        some (releasedTapTick 5) := by with_unfolding_all rfl
  have late : (releasedTapTick 5).before.settings.chord ≤
      (releasedTapTick 7).now - (releasedTapTick 5).now := by decide +kernel
  refine ⟨by decide +kernel, by decide +kernel, by decide +kernel, ?_⟩
  exact (releases_batched calm split).2.2.2 ⟨_, hlast, late⟩

end Engine

end Chordboard
