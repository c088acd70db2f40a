import Chordboard.Proofs.Delivery.Ledger

/-!
# Traffic that finds room

A queue that is emptied in time never overflows: as long as the events that wait and the reports
still to come fit into it, every report finds room (`roomy_of_length_le`).

Where no report finds the queue full, nothing is given up but what a release of everything makes
obsolete (`Roomy.kept_or_cleared`).
-/

namespace Chordboard

variable {capacity : Nat}

namespace Delivery

theorem run_append (d : Delivery capacity) (front back : List Traffic) :
    d.run (front ++ back) = (d.run front).run back := List.foldl_append

theorem waiting_receive (d : Delivery capacity) :
    d.receive.queue.waiting = d.queue.waiting.tail := by
  unfold receive EventQueue.receive?
  cases hwaiting : d.queue.waiting with
  | nil => exact hwaiting
  | cons e rest => rfl

theorem waiting_run_replicate_receive (d : Delivery capacity) (k : Nat) :
    (d.run (List.replicate k .receive)).queue.waiting = d.queue.waiting.drop k := by
  induction k generalizing d with
  | zero => rfl
  | succ k ih =>
      show (d.receive.run (List.replicate k .receive)).queue.waiting = _
      rw [ih, waiting_receive, List.drop_tail]

/-- No report finds the queue full. -/
def Roomy (d : Delivery capacity) : List Traffic → Prop
  | [] => True
  | .report r :: rest => d.queue.waiting.length < capacity ∧ Roomy (d.step (.report r)) rest
  | .receive :: rest => Roomy d.receive rest

theorem roomy_append {d : Delivery capacity} {front back : List Traffic} :
    Roomy d (front ++ back) ↔ Roomy d front ∧ Roomy (d.run front) back := by
  induction front generalizing d with
  | nil => exact (and_iff_right trivial).symm
  | cons use front ih =>
      cases use with
      | report r => exact (and_congr_right fun _ => ih).trans and_assoc.symm
      | receive => exact ih

theorem Roomy.waiting_lt {d : Delivery capacity} {before after : List Traffic} {r : Report}
    (h : Roomy d (before ++ .report r :: after)) :
    (d.run before).queue.waiting.length < capacity :=
  (roomy_append.1 h).2.1

/-- A report adds one event at most. -/
theorem length_waiting_report_le_succ (room : 0 < capacity) (d : Delivery capacity) (r : Report) :
    (d.step (.report r)).queue.waiting.length ≤ d.queue.waiting.length + 1 := by
  show (d.queue.report r).waiting.length ≤ d.queue.waiting.length + 1
  cases r with
  | event e =>
      by_cases free : d.queue.waiting.length < capacity
      · rw [EventQueue.report, EventQueue.waiting_put_of_lt e free, List.length_append]
        exact Nat.le_refl _
      · rw [EventQueue.report, EventQueue.waiting_put_of_le e room (Nat.le_of_not_lt free)]
        exact Nat.le_add_left 1 _
  | releaseAll =>
      rw [EventQueue.waiting_report_releaseAll d.queue room]
      exact Nat.le_add_left 1 _

/-- Reports for which there are places all find room, and take up no more places than that. -/
theorem roomy_of_length_le (room : 0 < capacity) {d : Delivery capacity} {uses : List Traffic}
    {used : Nat} (waiting : d.queue.waiting.length ≤ used)
    (fits : used + (uses.filterMap Traffic.report?).length ≤ capacity) :
    Roomy d uses ∧
      (d.run uses).queue.waiting.length ≤ used + (uses.filterMap Traffic.report?).length := by
  induction uses generalizing d used with
  | nil => exact ⟨trivial, waiting⟩
  | cons use uses ih =>
      cases use with
      | report r =>
          have hlength : ((Traffic.report r :: uses).filterMap Traffic.report?).length =
              (uses.filterMap Traffic.report?).length + 1 := rfl
          rw [hlength] at fits ⊢
          have hstep := length_waiting_report_le_succ room d r
          have hnext : (d.step (.report r)).queue.waiting.length ≤ used + 1 := by omega
          obtain ⟨hroomy, hrun⟩ := ih hnext (by omega)
          rw [run_cons]
          exact ⟨⟨by omega, hroomy⟩, by omega⟩
      | receive =>
          have hnext : d.receive.queue.waiting.length ≤ used := by
            rw [waiting_receive, List.length_tail]
            omega
          exact ih hnext fits

theorem roomy_replicate_receive (d : Delivery capacity) (k : Nat) :
    Roomy d (List.replicate k .receive) := by
  induction k generalizing d with
  | zero => trivial
  | succ k ih => exact ih d.receive

end Delivery

/-- If no report finds the queue full, a parcel is an event that was reported, or it is the
release of everything, in the place of what that made obsolete. -/
theorem Delivery.Roomy.kept_or_cleared (room : 0 < capacity) {l : Ledger capacity}
    {traffic : List Traffic} (h : Roomy l.delivery traffic)
    (start : ∀ p ∈ l.received ++ l.waiting,
      (∃ e, p = .kept e) ∨ p.reports.getLast? = some .releaseAll) :
    ∀ p ∈ (l.run traffic).received ++ (l.run traffic).waiting,
      (∃ e, p = .kept e) ∨ p.reports.getLast? = some .releaseAll := by
  induction traffic generalizing l with
  | nil => exact start
  | cons use traffic ih =>
      show ∀ p ∈ ((l.step use).run traffic).received ++ ((l.step use).run traffic).waiting, _
      cases use with
      | report r =>
          obtain ⟨hlt, hrest⟩ := h
          rw [Ledger.waiting_delivery, List.length_map] at hlt
          rw [← Ledger.delivery_step room] at hrest
          refine ih hrest ?_
          show ∀ p ∈ (l.report r).received ++ (l.report r).waiting, _
          rcases Ledger.report_cases l r with ⟨e, rfl, -, hreport⟩ | ⟨hwhy, why, hreport⟩
          · rw [hreport]
            intro p hp
            rw [← List.append_assoc] at hp
            rcases List.mem_append.1 hp with hp | hp
            · exact start p hp
            · exact Or.inl ⟨e, List.mem_singleton.1 hp⟩
          · have hall : r = .releaseAll := hwhy.resolve_right (Nat.not_le.2 hlt)
            rw [hreport]
            intro p hp
            rcases List.mem_append.1 hp with hp | hp
            · exact start p (List.mem_append_left _ hp)
            · rw [List.mem_singleton.1 hp, ← hall]
              exact Or.inr List.getLast?_concat
      | receive =>
          have hrest : Roomy l.receive.delivery traffic := by
            rw [Ledger.delivery_receive]
            exact h
          refine ih hrest ?_
          show ∀ p ∈ l.receive.received ++ l.receive.waiting, _
          unfold Ledger.receive
          split
          · exact start
          · rename_i p rest hwaiting
            rw [hwaiting] at start
            simpa using start

end Chordboard
