import Mathlib.Data.List.Induction
import Chordboard.Proofs.Switches.Renumbering
import Chordboard.Switches.Run

/-!
# Runs of switches with other numbers

The moves of one sample are taken in the order of the numbers, and the switches remember only the
last move, if it was a release. So the numbers decide which switch of several is remembered, and
with it what a double tap is. They decide nothing else, apart from a tap and a press in one sample
(`TapLast`): a run of renumbered switches looks the same exactly as long as both numberings agree
on double taps wherever a sent switch would be promoted (`renumbered_alike_iff`).
-/

namespace Chordboard

variable {n B : Nat} (σ : Equiv.Perm (Fin n)) {now : Nat} {sample : Fin n → Bool}

/-! ## Acts and answers under new numbers -/

/-- The pattern of the `n` switches, each under its new number. -/
def Pattern.renumber (p : Pattern B) : Pattern B :=
  Pattern.ofSwitches (((List.finRange n).filter fun i => p.has i.val).map fun i => (σ i).val)

namespace Switches

namespace Act

/-- The same act, with a sample of the renumbered switches. -/
def renumber : Act n → Act n
  | .update now sample => .update now (sample ∘ σ.symm)
  | .askPress now => .askPress now
  | .askRelease now => .askRelease now
  | .assemble => .assemble

/-- The moves that the act makes accepted, in the order of the new numbers. -/
def moves (s : Switches n) : Act n → List (Fin n × Transition)
  | .update now sample => s.listed σ now sample
  | _ => []

end Act

def Answer.renumber : Answer B → Answer B
  | .chord bits => .chord (bits.renumber σ)
  | answer => answer

def Sight.renumber (v : Sight B n) : Sight B n :=
  ⟨v.answer.renumber σ, rearrange σ v.statuses⟩

theorem statuses_renumber (s : Switches n) :
    (s.renumber σ).statuses = rearrange σ s.statuses :=
  rearrange_map σ s.slots Slot.status

theorem markSent_renumber (s : Switches n) : (s.renumber σ).markSent = s.markSent.renumber σ :=
  Switches.ext (rearrange_map σ s.slots Slot.markSent) rfl rfl

/-- The new numbers of the switches that join the next chord are those of the renumbered switches
that do. -/
theorem mem_joining_renumber (s : Switches n) (k : Nat) :
    k ∈ (s.renumber σ).joining ↔ ∃ i : Fin n, s.slots[i].joins = true ∧ (σ i).val = k := by
  simp only [joining, List.mem_map, List.mem_filter, List.mem_finRange, true_and, slots_renumber]
  constructor
  · rintro ⟨j, hj, rfl⟩
    exact ⟨σ.symm j, hj, by rw [Equiv.apply_symm_apply]⟩
  · rintro ⟨i, hi, rfl⟩
    exact ⟨σ i, by rwa [Equiv.symm_apply_apply], rfl⟩

theorem assemble_renumber (hn : n ≤ 8 * B) (s : Switches n) :
    (s.renumber σ).assemble B = ((s.assemble B).1.renumber σ, (s.assemble B).2.renumber σ) := by
  refine Prod.ext (Pattern.ext_has fun k hk => ?_) (markSent_renumber σ s)
  show (Pattern.ofSwitches (s.renumber σ).joining).has k = ((s.assemble B).1.renumber σ).has k
  rw [Pattern.renumber, Pattern.has_ofSwitches, Pattern.has_ofSwitches]
  congr 2
  refine propext ((mem_joining_renumber σ s k).trans ?_)
  simp only [List.mem_map, List.mem_filter, List.mem_finRange, true_and]
  refine exists_congr fun i => and_congr_left' ?_
  rw [has_assemble hn i.isLt]
  rfl

/-! ## What is remembered -/

/-- The switches, had these been the moves before. -/
def remembering (earlier : List (Fin n × Transition)) (s : Switches n) : Switches n :=
  { s with grouping := { s.grouping with lastReleased := Grouping.lastReleased? earlier } }

/-- The moves of a sample leave a switch that was sent, and the held timer has not run out. -/
def LeavesSent (now : Nat) (sample : Fin n → Bool) (s : Switches n) : Prop :=
  (s.debounce now sample).grouping.heldTimer.isDone now = false ∧
    ∃ i : Fin n, (s.debounce now sample).slots[i].status = .alreadySent

/-- In either numbering the last press or tap of an update is a tap, or in neither. -/
def Act.TapsAlike (s : Switches n) : Act n → Prop
  | .update now sample => s.TapLast (Equiv.refl _) now sample ↔ s.TapLast σ now sample
  | _ => True

/-- Where an update leaves a sent switch, it has a double tap in either numbering, or in neither:
after the moves `earlier` in the order of the numbers, and after `earlierBy` in that of the new
numbers. -/
def Act.DoubleTapsAlike (earlier earlierBy : List (Fin n × Transition)) (s : Switches n) :
    Act n → Prop
  | .update now sample =>
      s.LeavesSent now sample →
        ((∃ i, Grouping.DoubleTap earlier (s.transitions now sample) i) ↔
          ∃ i, Grouping.DoubleTap earlierBy (s.listed σ now sample) i)
  | _ => True

variable {s : Switches n} {earlier earlierBy : List (Fin n × Transition)}

/-- In either order of the moves the mark of double taps is told by the list of all of them. -/
theorem doubleTapped_listed (off : s.grouping.doubleTapped = false) :
    ((s.remembering earlier).groupingListed σ now sample).doubleTapped = true ↔
      ∃ i, Grouping.DoubleTap earlier (s.listed σ now sample) i := by
  have hmark := Grouping.doubleTapped_acceptAll now
    (g := (s.remembering earlier).grouping) rfl (s.listed σ now sample)
  refine hmark.trans (or_iff_right ?_)
  show ¬s.grouping.doubleTapped = true
  rw [off]
  exact Bool.false_ne_true

/-! ## One sample -/

theorem map_promote_of_unsent {v : Vector Slot n}
    (unsent : ¬∃ i : Fin n, v[i].status = .alreadySent) : v.map Slot.promote = v := by
  refine Vector.ext fun i hi => ?_
  have hi' : v[i].status ≠ .alreadySent := fun sent => unsent ⟨⟨i, hi⟩, sent⟩
  rw [Vector.getElem_map, Slot.promote, if_neg hi']

/-- Whether there is a promotion makes no difference without a sent switch. -/
theorem promoted_congr {v : Vector Slot n} {b b' : Bool}
    (same : (∃ i : Fin n, v[i].status = .alreadySent) → b = b') :
    (if b then v.map Slot.promote else v) = if b' then v.map Slot.promote else v := by
  by_cases sent : ∃ i : Fin n, v[i].status = .alreadySent
  · rw [same sent]
  · rw [map_promote_of_unsent sent, ite_self, ite_self]

theorem statuses_promoted_iff {v : Vector Slot n} {b b' : Bool} :
    (if b then v.map Slot.promote else v).map Slot.status =
        (if b' then v.map Slot.promote else v).map Slot.status ↔
      ((∃ i : Fin n, v[i].status = .alreadySent) → b = b') := by
  constructor
  · rintro heq ⟨i, sent⟩
    -- The status of a sent switch tells whether there was a promotion.
    have hstatus : ∀ b : Bool, ((if b then v.map Slot.promote else v).map Slot.status)[i.val] =
        if b then .held else .alreadySent := by
      intro b
      cases b with
      | false => simpa using sent
      | true => simpa using Slot.status_promote_of_alreadySent sent
    have hi := congrArg (fun u => u[i.val]) heq
    simp only [hstatus] at hi
    cases b <;> cases b' <;> simp at hi ⊢
  · intro same
    rw [promoted_congr same]

/-- In either order the moves leave the same timers, unless the order decides whether a tap comes
after all presses. -/
theorem sameTimers_listed (earlierBy : List (Fin n × Transition))
    (taps : (Act.update now sample).TapsAlike σ s) :
    (s.debounce now sample).grouping.SameTimers
      ((s.remembering earlierBy).groupingListed σ now sample) := by
  rw [Act.TapsAlike, tapLast_iff, tapLast_iff, listed_refl] at taps
  exact Grouping.SameTimers.acceptAll ⟨rfl, rfl, rfl⟩ (listed_perm σ now sample s).symm taps

/-- Sent switches are promoted for two reasons, and only one of them depends on the order of the
moves. -/
theorem promotesListed_iff (off : s.grouping.doubleTapped = false)
    (taps : (Act.update now sample).TapsAlike σ s) :
    (s.remembering earlierBy).promotesListed σ now sample = true ↔
      (s.debounce now sample).grouping.heldTimer.isDone now = true ∨
        ∃ i, Grouping.DoubleTap earlierBy (s.listed σ now sample) i := by
  rw [promotesListed, Bool.or_eq_true, doubleTapped_listed σ off,
    (sameTimers_listed σ earlierBy taps).held]

/-- Where an update has a switch to promote, both numberings agree on whether it is promoted. -/
theorem doubleTapsAlike_iff (recalls : s.Recalls earlier)
    (taps : (Act.update now sample).TapsAlike σ s) :
    (Act.update now sample).DoubleTapsAlike σ earlier earlierBy s ↔
      ((∃ i : Fin n, (s.stepSlots now sample)[i].status = .alreadySent) →
        (s.remembering earlierBy).promotesListed σ now sample =
          s.promotes now sample) := by
  rw [Bool.eq_iff_iff, promotesListed_iff σ recalls.doubleTapped taps, recalls.promotes_iff]
  show (s.LeavesSent now sample → _) ↔ _
  unfold LeavesSent
  cases (s.debounce now sample).grouping.heldTimer.isDone now with
  | false =>
      simp only [true_and, Bool.false_eq_true, false_or]
      exact forall_congr' fun _ => iff_comm
  | true => simp

theorem statuses_updateListed_iff (recalls : s.Recalls earlier)
    (taps : (Act.update now sample).TapsAlike σ s) :
    ((s.remembering earlierBy).updateListed σ now sample).statuses =
        (s.updateChorded now sample).statuses ↔
      (Act.update now sample).DoubleTapsAlike σ earlier earlierBy s := by
  rw [doubleTapsAlike_iff σ recalls taps, updateChorded_eq]
  exact statuses_promoted_iff

/-- Where the numberings agree, the order of the moves decides only what is remembered. -/
theorem updateListed_of_alike (recalls : s.Recalls earlier)
    (taps : (Act.update now sample).TapsAlike σ s)
    (doubles : (Act.update now sample).DoubleTapsAlike σ earlier earlierBy s) :
    (s.remembering earlierBy).updateListed σ now sample =
      (s.updateChorded now sample).remembering (earlierBy ++ s.listed σ now sample) := by
  have hlast := Grouping.lastReleased_acceptAll now
    (g := (s.remembering earlierBy).grouping) rfl (s.listed σ now sample)
  obtain ⟨hchord, hrelease, hheld⟩ := sameTimers_listed σ earlierBy taps
  rw [updateChorded_eq]
  refine Switches.ext (promoted_congr ((doubleTapsAlike_iff σ recalls taps).1 doubles)) ?_ rfl
  show _ = (⟨(s.debounce now sample).grouping.chordTimer,
    (s.debounce now sample).grouping.releaseTimer,
    ((s.debounce now sample).grouping.heldTimer.take now).2, _, false⟩ : Grouping n)
  rw [hchord, hrelease, hheld, ← hlast]
  rfl

/-! ## One act -/

variable {a : Act n}

/-- Renumbered switches that stay so after an act look the same, but for their numbers. -/
theorem sight_renumber_of_eq {t : Switches n} {b : Act n}
    (answer : (t.perform B b).1 = (s.perform B a).1.renumber σ)
    (after : (t.perform B b).2 = ((s.perform B a).2.remembering earlier).renumber σ) :
    t.sight B b = (s.sight B a).renumber σ := by
  unfold sight Sight.renumber
  rw [answer, after, statuses_renumber]
  rfl

theorem sight_alike_iff (hn : n ≤ 8 * B) (recalls : s.Recalls earlier) (taps : a.TapsAlike σ s) :
    ((s.remembering earlierBy).renumber σ).sight B (a.renumber σ) =
        (s.sight B a).renumber σ ↔ a.DoubleTapsAlike σ earlier earlierBy s := by
  cases a with
  | update now sample =>
      -- An update answers nothing, so it looks the same if it leaves the same statuses.
      rw [← statuses_updateListed_iff σ recalls taps, ← rearrange_inj σ, ← statuses_renumber,
        ← updateChorded_renumber]
      show (⟨_, _⟩ : Sight B n) = ⟨_, _⟩ ↔ _
      rw [Sight.mk.injEq]
      exact and_iff_right rfl
  | askPress now => exact iff_of_true (sight_renumber_of_eq σ rfl rfl) trivial
  | askRelease now => exact iff_of_true (sight_renumber_of_eq σ rfl rfl) trivial
  | assemble =>
      have hchord : (((s.remembering earlierBy).renumber σ).assemble B).1 =
          (s.assemble B).1.renumber σ :=
        congrArg Prod.fst (assemble_renumber σ hn _)
      exact iff_of_true (sight_renumber_of_eq σ (congrArg Answer.chord hchord)
        (markSent_renumber σ _)) trivial

theorem perform_alike (recalls : s.Recalls earlier) (taps : a.TapsAlike σ s)
    (doubles : a.DoubleTapsAlike σ earlier earlierBy s) :
    (((s.remembering earlierBy).renumber σ).perform B (a.renumber σ)).2 =
      ((s.perform B a).2.remembering (earlierBy ++ a.moves σ s)).renumber σ := by
  cases a with
  | update now sample =>
      show ((s.remembering _).renumber σ).updateChorded now (sample ∘ σ.symm) = _
      rw [updateChorded_renumber, updateListed_of_alike σ recalls taps doubles]
      rfl
  | askPress now =>
      simp only [Act.moves, List.append_nil]
      rfl
  | askRelease now =>
      simp only [Act.moves, List.append_nil]
      rfl
  | assemble =>
      show ((s.remembering _).renumber σ).markSent = _
      simp only [markSent_renumber, Act.moves, List.append_nil]
      rfl

theorem Recalls.perform (recalls : s.Recalls earlier) (a : Act n) :
    (s.perform B a).2.Recalls (earlier ++ a.moves (Equiv.refl _) s) := by
  cases a with
  | update now sample =>
      show (s.updateChorded now sample).Recalls (earlier ++ s.listed (Equiv.refl _) now sample)
      rw [listed_refl]
      exact recalls.updateChorded now sample
  | _ =>
      simp only [Act.moves, List.append_nil]
      exact ⟨recalls.lastReleased, recalls.doubleTapped⟩

/-! ## Runs -/

/-- Of each of the acts `P` holds, given the acts before it. -/
def EachAct (acts : List (Act n)) (P : List (Act n) → Act n → Prop) : Prop :=
  ∀ front a, front ++ [a] <+: acts → P front a

theorem eachAct_nil (P : List (Act n) → Act n → Prop) : EachAct [] P := by
  intro front a h
  simp at h

theorem eachAct_concat (acts : List (Act n)) (a : Act n) (P : List (Act n) → Act n → Prop) :
    EachAct (acts ++ [a]) P ↔ EachAct acts P ∧ P acts a := by
  constructor
  · intro h
    exact ⟨fun front b hfront => h front b (hfront.trans (List.prefix_append acts [a])),
      h acts a List.prefix_rfl⟩
  · rintro ⟨hacts, ha⟩ front b hfront
    rcases List.prefix_concat_iff.1 hfront with heq | hfront
    · obtain ⟨rfl, rfl⟩ := List.append_singleton_inj.1 heq
      exact ha
    · exact hacts front b hfront

/-- The moves that the acts make accepted, act by act, and those of one act in the order of the
new numbers. -/
def accepted (B : Nat) (s : Switches n) : List (Act n) → List (Fin n × Transition)
  | [] => []
  | a :: acts => a.moves σ s ++ accepted B (s.perform B a).2 acts

theorem accepted_concat (s : Switches n) (acts : List (Act n)) (a : Act n) :
    s.accepted σ B (acts ++ [a]) = s.accepted σ B acts ++ a.moves σ (s.run B acts) := by
  induction acts generalizing s with
  | nil =>
      show a.moves σ s ++ [] = a.moves σ s
      rw [List.append_nil]
  | cons first acts ih =>
      rw [List.cons_append, accepted, ih, accepted, List.append_assoc]
      rfl

theorem recalls_run (settings : Settings) (acts : List (Act n)) :
    ((new n settings).run B acts).Recalls ((new n settings).accepted (Equiv.refl _) B acts) := by
  induction acts using List.reverseRecOn with
  | nil => exact ⟨rfl, rfl⟩
  | append_singleton acts a ih =>
      rw [run_concat, accepted_concat]
      exact ih.perform a

theorem renumber_new (settings : Settings) : (new n settings).renumber σ = new n settings := by
  refine Switches.ext (Vector.ext fun j hj => ?_) rfl rfl
  show (rearrange σ (Vector.replicate n (Slot.new settings.debounce))).get ⟨j, hj⟩ = _
  rw [get_rearrange]
  simp [new, Vector.get]

section Run

variable (settings : Settings) {acts : List (Act n)}

/-- In a run each update whose moves leave a sent switch has a double tap in either numbering, or
in neither. -/
def DoubleTapsAlike (B : Nat) (settings : Settings) (acts : List (Act n)) : Prop :=
  EachAct acts fun front a =>
    a.DoubleTapsAlike σ ((new n settings).accepted (Equiv.refl _) B front)
      ((new n settings).accepted σ B front) ((new n settings).run B front)

/-- In a run each update has a tap after all presses in either numbering, or in neither. -/
def TapsAlike (B : Nat) (settings : Settings) (acts : List (Act n)) : Prop :=
  EachAct acts fun front a => a.TapsAlike σ ((new n settings).run B front)

/-- Without taps no numbering decides anything about them. -/
theorem tapsAlike_of_no_tap
    (quiet : ∀ m ∈ (new n settings).accepted (Equiv.refl _) B acts, m.2 ≠ .tap) :
    TapsAlike σ B settings acts := by
  induction acts using List.reverseRecOn with
  | nil => exact eachAct_nil _
  | append_singleton acts a ih =>
      rw [accepted_concat] at quiet
      refine (eachAct_concat _ _ _).2
        ⟨ih fun m hm => quiet m (List.mem_append_left _ hm), ?_⟩
      cases a with
      | update now sample =>
          have untapped : ∀ τ : Equiv.Perm (Fin n),
              ¬((new n settings).run B acts).TapLast τ now sample := by
            rintro τ ⟨k, hk, -⟩
            rw [← listed_refl] at hk
            exact quiet _ (List.mem_append_right _ hk) rfl
          exact iff_of_false (untapped _) (untapped σ)
      | _ => trivial

/-- As long as both numberings agree, the runs differ in nothing but the switch that is remembered
for double taps. -/
theorem run_renumbered_alike (taps : TapsAlike σ B settings acts)
    (doubles : DoubleTapsAlike σ B settings acts) :
    (new n settings).run B (acts.map (Act.renumber σ)) =
      (((new n settings).run B acts).remembering
        ((new n settings).accepted σ B acts)).renumber σ := by
  induction acts using List.reverseRecOn with
  | nil => exact (renumber_new σ settings).symm
  | append_singleton acts a ih =>
      obtain ⟨taps, htaps⟩ := (eachAct_concat _ _ _).1 taps
      obtain ⟨doubles, hdoubles⟩ := (eachAct_concat _ _ _).1 doubles
      rw [List.map_append, List.map_singleton, run_concat, ih taps doubles,
        perform_alike σ (recalls_run settings acts) htaps hdoubles, run_concat, accepted_concat]

/-- Under new numbers a run looks the same, but for the numbers, exactly as long as both
numberings agree on double taps; this leaves out runs in which the numbering decides whether a tap
comes after all presses of its sample. -/
theorem renumbered_alike_iff (hn : n ≤ 8 * B) (taps : TapsAlike σ B settings acts) :
    (new n settings).watch B (acts.map (Act.renumber σ)) =
        ((new n settings).watch B acts).map (Sight.renumber σ) ↔
      DoubleTapsAlike σ B settings acts := by
  induction acts using List.reverseRecOn with
  | nil => exact iff_of_true rfl (eachAct_nil _)
  | append_singleton acts a ih =>
      obtain ⟨taps, htaps⟩ := (eachAct_concat _ _ _).1 taps
      rw [List.map_append, List.map_singleton, watch_concat, watch_concat, List.map_append,
        List.map_singleton, List.append_singleton_inj, ih taps]
      -- What the last act looks like depends on the acts before it only through the two states,
      -- and these correspond as soon as the double taps before it agree.
      refine (and_congr_right fun doubles => ?_).trans (eachAct_concat _ _ _).symm
      rw [run_renumbered_alike σ settings taps doubles]
      exact sight_alike_iff σ hn (recalls_run settings acts) htaps

end Run

/-- Three switches are sent, the first two of them are released together, and the second is pressed
again. -/
def releasedTogether : List (Act 5) :=
  [.update 0 (·.val < 3), .update 10000 (·.val < 3), .askPress 40000, .assemble,
    .update 41000 (·.val == 2), .update 51000 (·.val == 2),
    .update 52000 fun i => i.val == 1 || i.val == 2,
    .update 62000 fun i => i.val == 1 || i.val == 2]

/-- The second and the third switch change numbers: the second is still the last that was
released, and its press is a double tap in both numberings. -/
theorem renumbered_alike_swap_later :
    TapsAlike (Equiv.swap 1 2) 1 .usual releasedTogether ∧
      (∃ i, Grouping.DoubleTap
        ((new 5 .usual).accepted (Equiv.refl _) 1 (releasedTogether.take 7))
        (((new 5 .usual).run 1 (releasedTogether.take 7)).transitions 62000
          fun i => i.val == 1 || i.val == 2) i) ∧
      DoubleTapsAlike (Equiv.swap 1 2) 1 .usual releasedTogether := by
  have taps : TapsAlike (Equiv.swap 1 2) 1 .usual releasedTogether :=
    tapsAlike_of_no_tap _ _ (by decide +kernel)
  have double : Grouping.DoubleTap
      ((new 5 .usual).accepted (Equiv.refl _) 1 (releasedTogether.take 7))
      (((new 5 .usual).run 1 (releasedTogether.take 7)).transitions 62000
        fun i => i.val == 1 || i.val == 2) 1 :=
    ⟨[], [], by decide +kernel, by decide +kernel⟩
  have same : (new 5 .usual).watch 1 (releasedTogether.map (Act.renumber (Equiv.swap 1 2))) =
      ((new 5 .usual).watch 1 releasedTogether).map (Sight.renumber (Equiv.swap 1 2)) := by
    decide +kernel
  exact ⟨taps, ⟨1, double⟩, (renumbered_alike_iff _ _ (by decide) taps).1 same⟩

/-- The first two switches change numbers: the other one is the last that was released, and in the
new numbering the press is no double tap. -/
theorem numbering_decides_double_tap :
    ¬∀ (n B : Nat) (σ : Equiv.Perm (Fin n)) (settings : Settings) (acts : List (Act n)),
      n ≤ 8 * B →
        (new n settings).watch B (acts.map (Act.renumber σ)) =
          ((new n settings).watch B acts).map (Sight.renumber σ) := by
  intro same
  have differs : (new 5 .usual).watch 1 (releasedTogether.map (Act.renumber (Equiv.swap 0 1))) ≠
      ((new 5 .usual).watch 1 releasedTogether).map (Sight.renumber (Equiv.swap 0 1)) := by
    decide +kernel
  exact differs (same 5 1 (Equiv.swap 0 1) .usual releasedTogether (by decide))

end Switches

end Chordboard
