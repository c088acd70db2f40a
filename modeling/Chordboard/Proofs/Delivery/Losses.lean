import Chordboard.Proofs.Delivery.Room

/-!
# What a delivery loses

The transport receives the reports in their order, but where it has fallen behind, or where
the engine released everything, a single release stands in the place of a whole block of them
(`Condensed`). A block that was given up may begin with the release of an earlier one, so the
blocks are not those of single overflows: they are read off the ledger, whose parcels carry
them (`condensed_parcels`).
-/

namespace Chordboard

variable {capacity : Nat}

/-! ## Reports with blocks replaced -/

/-- The events are the reports in their order, but for blocks of reports side by side that a
single release takes the place of. Such a block ends with a release of everything, or it is
longer than the queue has room for. -/
inductive Condensed (capacity : Nat) : List Report → List Event → Prop where
  | nil : Condensed capacity [] []
  | keep (e : Event) {rs : List Report} {es : List Event} (rest : Condensed capacity rs es) :
      Condensed capacity (.event e :: rs) (e :: es)
  | replace {block : List Report}
      (why : block.getLast? = some .releaseAll ∨ capacity < block.length)
      {rs : List Report} {es : List Event} (rest : Condensed capacity rs es) :
      Condensed capacity (block ++ rs) (.release :: es)

/-- Apart from releases, what is left was reported, in that order and no more often. -/
theorem Condensed.sublist {rs : List Report} {es : List Event} (h : Condensed capacity rs es) :
    (es.filter (· ≠ .release)).Sublist (rs.map Report.toEvent) := by
  induction h with
  | nil => exact List.Sublist.slnil
  | keep e rest ih =>
      rw [List.map_cons, List.filter_cons]
      split
      · exact ih.cons_cons e
      · exact ih.cons (Report.event e).toEvent
  | replace why rest ih =>
      rw [List.map_append, List.filter_cons_of_neg (by simp)]
      exact ih.trans (List.sublist_append_right _ _)

theorem GivenUp.ends {block : List Report} (h : GivenUp capacity block) :
    block.getLast? = some .releaseAll ∨ capacity < block.length := by
  cases h with
  | cleared rs => exact Or.inl List.getLast?_concat
  | overrun e full =>
      right
      rw [List.length_append, List.length_singleton]
      exact Nat.lt_succ_of_le full

/-- Parcels stand for their reports in the way that a delivery does. -/
theorem condensed_parcels (ps : List (Parcel capacity)) :
    Condensed capacity (ps.flatMap Parcel.reports) (ps.map Parcel.event) := by
  induction ps with
  | nil => exact .nil
  | cons p ps ih =>
      rw [List.flatMap_cons, List.map_cons]
      cases p with
      | kept e => exact ih.keep e
      | lost block why => exact ih.replace why.ends

/-! ## The queue stays within its capacity -/

theorem EventQueue.length_waiting_report_le (room : 0 < capacity) (q : EventQueue capacity)
    (r : Report) : (q.report r).waiting.length ≤ capacity := by
  cases r with
  | event e =>
      by_cases free : q.waiting.length < capacity
      · rw [report, waiting_put_of_lt e free, List.length_append, List.length_singleton]
        exact free
      · rw [report, waiting_put_of_le e room (Nat.le_of_not_lt free)]
        exact room
  | releaseAll =>
      rw [waiting_report_releaseAll q room]
      exact room

namespace Delivery

theorem length_waiting_receive_le {d : Delivery capacity}
    (h : d.queue.waiting.length ≤ capacity) : d.receive.queue.waiting.length ≤ capacity := by
  rw [waiting_receive, List.length_tail]
  omega

theorem length_waiting_run_le (room : 0 < capacity) {d : Delivery capacity}
    (h : d.queue.waiting.length ≤ capacity) (traffic : List Traffic) :
    (d.run traffic).queue.waiting.length ≤ capacity := by
  induction traffic generalizing d with
  | nil => exact h
  | cons use traffic ih =>
      rw [run_cons]
      cases use with
      | report r => exact ih (EventQueue.length_waiting_report_le room d.queue r)
      | receive => exact ih (length_waiting_receive_le h)

/-- **Every report is delivered, or a release is.** Take any traffic of a queue. What the
transport has received, followed by what still waits for it, is what was reported, with
some blocks each replaced by a single release: blocks that end with a release of everything,
or that are longer than the queue. So nothing is reordered and nothing comes twice, and the
queue never holds more than it has room for. -/
theorem reports_condensed (room : 0 < capacity) (traffic : List Traffic) :
    Condensed capacity (traffic.filterMap Traffic.report?)
        (((idle capacity).run traffic).received ++
          ((idle capacity).run traffic).queue.waiting) ∧
      ((((idle capacity).run traffic).received ++
          ((idle capacity).run traffic).queue.waiting).filter (· ≠ .release)).Sublist
        ((traffic.filterMap Traffic.report?).map Report.toEvent) ∧
      ((idle capacity).run traffic).queue.waiting.length ≤ capacity := by
  have hreports : ((Ledger.blank capacity).run traffic).reports =
      traffic.filterMap Traffic.report? := Ledger.reports_run (Ledger.blank capacity) traffic
  have hdelivery : ((Ledger.blank capacity).run traffic).delivery =
      (idle capacity).run traffic := Ledger.delivery_run room (Ledger.blank capacity) traffic
  have hcondensed : Condensed capacity (traffic.filterMap Traffic.report?)
      (((idle capacity).run traffic).received ++
        ((idle capacity).run traffic).queue.waiting) := by
    rw [← hreports, ← hdelivery, Ledger.delivery, ← List.map_append]
    exact condensed_parcels _
  exact ⟨hcondensed, hcondensed.sublist, length_waiting_run_le room (Nat.zero_le _) traffic⟩

/-- A queue with room for four events is overrun, and then overrun once more before the
release of the first overflow was received. Then everything is released. -/
def overrunTwice : List Traffic :=
  (List.replicate 9 (.report (.event (.hold [] Modifier.leftShift)))) ++
    [.receive, .report (.event (.hold [] Modifier.leftCtrl)),
      .report (.event (.hold [] Modifier.leftAlt)), .receive,
      .report .releaseAll, .report (.event (.hold [] 0))]

theorem overrunTwice_condensed :
    0 < 4 ∧ ((idle 4).run overrunTwice).received = [.release, .hold [] Modifier.leftCtrl] ∧
      ((idle 4).run overrunTwice).queue.waiting = [.release, .hold [] 0] ∧
      Condensed 4 (overrunTwice.filterMap Traffic.report?)
        [.release, .hold [] Modifier.leftCtrl, .release, .hold [] 0] := by
  have room : 0 < 4 := by decide
  obtain ⟨hcondensed, -, -⟩ := reports_condensed room overrunTwice
  exact ⟨room, by decide, by decide, hcondensed⟩

end Delivery

end Chordboard
