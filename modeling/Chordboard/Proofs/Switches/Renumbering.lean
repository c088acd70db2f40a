import Mathlib.Data.List.FinRange
import Chordboard.Proofs.Switches.MoveHistory

/-!
# Switches with other numbers

A permutation `σ` gives each switch `i` the new number `σ i`. The switches that result
(`Switches.renumber`) are sampled like those before, with one difference: the moves of a sample
are taken in the order of the new numbers (`listed`, `updateChorded_renumber`). The order has no
effect on the shared timers, unless it decides whether a tap comes after all presses
(`Grouping.SameTimers.acceptAll`).
-/

namespace Chordboard

variable {n B : Nat} (σ : Equiv.Perm (Fin n)) {now : Nat} {sample : Fin n → Bool}

/-! ## New numbers -/

/-- What belongs to each of the switches, in the order of the new numbers. -/
def rearrange {α : Type} (v : Vector α n) : Vector α n :=
  Vector.ofFn fun j => v.get (σ.symm j)

section Rearrange

variable {α β : Type} (v w : Vector α n)

@[simp] theorem get_rearrange (j : Fin n) : (rearrange σ v).get j = v.get (σ.symm j) :=
  Vector.getElem_ofFn j.isLt

theorem rearrange_map (f : α → β) : (rearrange σ v).map f = rearrange σ (v.map f) := by
  unfold rearrange
  rw [Vector.map_ofFn]
  congr 1
  funext j
  show f (v.get (σ.symm j)) = (v.map f).get (σ.symm j)
  exact (Vector.getElem_map f (σ.symm j).isLt).symm

theorem rearrange_inj : rearrange σ v = rearrange σ w ↔ v = w := by
  constructor
  · intro h
    refine Vector.ext fun i hi => ?_
    have hget := congrArg (fun u => u.get (σ ⟨i, hi⟩)) h
    simp only [get_rearrange, Equiv.symm_apply_apply] at hget
    exact hget
  · exact congrArg (rearrange σ)

end Rearrange

/-- The move, made by the switch under its new number. -/
def renameMove (m : Fin n × Transition) : Fin n × Transition := (σ m.1, m.2)

namespace Grouping

def renumber (g : Grouping n) : Grouping n :=
  { g with lastReleased := g.lastReleased.map σ }

theorem accept_renumber (g : Grouping n) (m : Fin n × Transition) :
    accept now (g.renumber σ) (renameMove σ m) = (accept now g m).renumber σ := by
  obtain ⟨i, m⟩ := m
  cases m with
  | press =>
      have hlast : (g.lastReleased.map σ == some (σ i)) = (g.lastReleased == some i) := by
        cases g.lastReleased <;> simp
      simp only [accept, renameMove, press, renumber, hlast]
      rfl
  | release => rfl
  | tap => rfl

theorem acceptAll_renumber (g : Grouping n) (ms : List (Fin n × Transition)) :
    (g.renumber σ).acceptAll now (ms.map (renameMove σ)) = (g.acceptAll now ms).renumber σ := by
  induction ms generalizing g with
  | nil => rfl
  | cons m ms ih => rw [List.map_cons, acceptAll_cons, accept_renumber, ih, acceptAll_cons]

end Grouping

namespace Switches

/-- The same switches, each under its new number. -/
def renumber (s : Switches n) : Switches n where
  slots := rearrange σ s.slots
  grouping := s.grouping.renumber σ
  gamingChanged := s.gamingChanged

theorem slots_renumber (s : Switches n) (j : Fin n) :
    (s.renumber σ).slots[j] = s.slots[σ.symm j] :=
  get_rearrange σ s.slots j

/-! ## Samples -/

/-- The moves that a sample makes accepted, in the order of the new numbers. -/
def listed (now : Nat) (sample : Fin n → Bool) (s : Switches n) : List (Fin n × Transition) :=
  ((List.finRange n).map σ.symm).filterMap fun i => (s.slots[i].step now (sample i)).2.map (i, ·)

/-- With the numbers that they have, the moves come as they are taken. -/
theorem listed_refl (now : Nat) (sample : Fin n → Bool) (s : Switches n) :
    s.listed (Equiv.refl _) now sample = s.transitions now sample := by
  unfold listed transitions
  rw [Equiv.refl_symm, Equiv.coe_refl, List.map_id]

theorem listed_perm (now : Nat) (sample : Fin n → Bool) (s : Switches n) :
    (s.listed σ now sample).Perm (s.transitions now sample) :=
  (Equiv.Perm.map_finRange_perm σ.symm).filterMap _

theorem listed_sorted (now : Nat) (sample : Fin n → Bool) (s : Switches n) :
    (s.listed σ now sample).Pairwise fun m m' => σ m.1 < σ m'.1 := by
  refine List.Pairwise.filterMap (R := fun i j => σ i < σ j) _ ?_ ?_
  · intro i j hij m hm m' hm'
    obtain ⟨_, -, rfl⟩ := Option.map_eq_some_iff.1 hm
    obtain ⟨_, -, rfl⟩ := Option.map_eq_some_iff.1 hm'
    exact hij
  · rw [List.pairwise_map]
    simpa using List.pairwise_lt_finRange n

theorem stepSlots_renumber (now : Nat) (sample : Fin n → Bool) (s : Switches n) :
    (s.renumber σ).stepSlots now (sample ∘ σ.symm) = rearrange σ (s.stepSlots now sample) := by
  refine Vector.ext fun j hj => ?_
  have hstep : (rearrange σ (s.stepSlots now sample)).get ⟨j, hj⟩ =
      (s.slots[σ.symm ⟨j, hj⟩].step now (sample (σ.symm ⟨j, hj⟩))).1 := by
    rw [get_rearrange]
    exact getElem_stepSlots now sample s _ (σ.symm ⟨j, hj⟩).isLt
  rw [getElem_stepSlots]
  exact (congrArg (fun slot => (Slot.step now (sample (σ.symm ⟨j, hj⟩)) slot).1)
    (slots_renumber σ s ⟨j, hj⟩)).trans hstep.symm

theorem transitions_renumber (now : Nat) (sample : Fin n → Bool) (s : Switches n) :
    (s.renumber σ).transitions now (sample ∘ σ.symm) =
      (s.listed σ now sample).map (renameMove σ) := by
  unfold transitions listed
  rw [List.map_filterMap, List.filterMap_map]
  refine List.filterMap_congr fun j _ => ?_
  show ((s.renumber σ).slots[j].step now (sample (σ.symm j))).2.map (j, ·) = _
  rw [slots_renumber, Function.comp_apply, Option.map_map]
  congr 1
  funext m
  show (j, m) = (σ (σ.symm j), m)
  rw [Equiv.apply_symm_apply]

/-- What the switches share after the moves of a sample, in the order of the new numbers. -/
def groupingListed (now : Nat) (sample : Fin n → Bool) (s : Switches n) : Grouping n :=
  s.grouping.acceptAll now (s.listed σ now sample)

theorem acceptAll_transitions_renumber (now : Nat) (sample : Fin n → Bool) (s : Switches n) :
    (s.renumber σ).grouping.acceptAll now ((s.renumber σ).transitions now (sample ∘ σ.symm)) =
      (s.groupingListed σ now sample).renumber σ := by
  rw [transitions_renumber]
  exact Grouping.acceptAll_renumber σ s.grouping (s.listed σ now sample)

/-- The sample promotes the sent switches, with the moves in the order of the new numbers. -/
def promotesListed (now : Nat) (sample : Fin n → Bool) (s : Switches n) : Bool :=
  (s.groupingListed σ now sample).heldTimer.isDone now ||
    (s.groupingListed σ now sample).doubleTapped

/-- Takes a sample in a chorded mode, with the moves in the order of the new numbers. -/
def updateListed (now : Nat) (sample : Fin n → Bool) (s : Switches n) : Switches n :=
  { s with
    slots := if s.promotesListed σ now sample then (s.stepSlots now sample).map Slot.promote
      else s.stepSlots now sample
    grouping := { s.groupingListed σ now sample with
      heldTimer := ((s.groupingListed σ now sample).heldTimer.take now).2
      doubleTapped := false } }

/-- To sample renumbered switches is to take the moves in the order of the new numbers. -/
theorem updateChorded_renumber (now : Nat) (sample : Fin n → Bool) (s : Switches n) :
    (s.renumber σ).updateChorded now (sample ∘ σ.symm) =
      (s.updateListed σ now sample).renumber σ := by
  rw [updateChorded_eq]
  unfold promotes
  rw [acceptAll_transitions_renumber, stepSlots_renumber, rearrange_map]
  refine Switches.ext ?_ rfl rfl
  exact (apply_ite (rearrange σ) _ _ _).symm

end Switches

/-! ## The order of the moves -/

namespace Grouping

variable {g g' : Grouping n} {ms ms' : List (Fin n × Transition)}

/-- All but the memory of double taps is the same. -/
structure SameTimers (g g' : Grouping n) : Prop where
  chord : g.chordTimer = g'.chordTimer
  release : g.releaseTimer = g'.releaseTimer
  held : g.heldTimer = g'.heldTimer

/-- The chord timer goes by whether the last press or tap is a tap. -/
theorem chordTimer_acceptAll_perm (same : g.chordTimer = g'.chordTimer) (perm : ms.Perm ms')
    (taps : (∃ k, lastLoud? ms = some (k, .tap)) ↔ ∃ k, lastLoud? ms' = some (k, .tap)) :
    (g.acceptAll now ms).chordTimer = (g'.acceptAll now ms').chordTimer := by
  rw [chordTimer_acceptAll, chordTimer_acceptAll, ← same]
  -- The last press or tap may be that of another switch, but if one list has any, so has the other.
  cases hlast : lastLoud? ms with
  | none =>
      have hquiet : lastLoud? ms' = none :=
        lastLoud?_eq_none_iff.2 fun m hm => lastLoud?_eq_none_iff.1 hlast m (perm.mem_iff.2 hm)
      rw [hquiet]
  | some last =>
      obtain ⟨i, move⟩ := last
      cases hlast' : lastLoud? ms' with
      | none =>
          obtain ⟨hm, loud⟩ := mem_of_lastLoud? hlast
          exact absurd (lastLoud?_eq_none_iff.1 hlast' _ (perm.mem_iff.1 hm)) loud
      | some last' =>
          obtain ⟨j, move'⟩ := last'
          rw [hlast, hlast'] at taps
          have hkinds : move = .tap ↔ move' = .tap := by simpa using taps
          cases move <;> cases move' <;> simp at hkinds ⊢

theorem SameTimers.acceptAll (same : g.SameTimers g') (perm : ms.Perm ms')
    (taps : (∃ k, lastLoud? ms = some (k, .tap)) ↔ ∃ k, lastLoud? ms' = some (k, .tap)) :
    (g.acceptAll now ms).SameTimers (g'.acceptAll now ms') where
  chord := chordTimer_acceptAll_perm same.chord perm taps
  release := by
    rw [releaseTimer_acceptAll, releaseTimer_acceptAll, same.release, perm.any_eq]
  held := by
    rw [heldTimer_acceptAll, heldTimer_acceptAll, same.held]
    simp only [← List.length_eq_zero_iff, perm.length_eq]

end Grouping

namespace Switches

/-- Some switch is tapped, and no switch with a higher number is pressed. -/
def TapLast (now : Nat) (sample : Fin n → Bool) (s : Switches n) : Prop :=
  ∃ k, (k, .tap) ∈ s.transitions now sample ∧
    ∀ p, (p, .press) ∈ s.transitions now sample → σ p < σ k

theorem tapLast_iff (now : Nat) (sample : Fin n → Bool) (s : Switches n) :
    s.TapLast σ now sample ↔ ∃ k, Grouping.lastLoud? (s.listed σ now sample) = some (k, .tap) := by
  rw [Grouping.lastLoud?_tap_iff σ (listed_sorted σ now sample s)]
  simp only [TapLast, (listed_perm σ now sample s).mem_iff]

end Switches

end Chordboard
