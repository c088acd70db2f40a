import Chordboard.Delivery
import Mathlib.Data.List.Basic

/-!
# The ledger of a delivery

The events that the transport receives do not tell where they come from: a release may
have been reported, or it may stand for a whole block of reports that were given up. The
ledger keeps a parcel for each event, which names the reports that the event stands for.

* `delivery_run`: without its names the ledger is the delivery itself.
* `reports_run`: the parcels that were received and those that wait make up all reports, in
  their order.
* A parcel stands for the event that was reported, or for a block that was given up; which
  blocks can be given up is part of the parcel (`GivenUp`).
-/

namespace Chordboard

variable {capacity : Nat}

/-! ## Parcels -/

/-- A block of reports that a single release takes the place of: a release of everything
makes those before it obsolete, or an event finds the queue full. -/
inductive GivenUp (capacity : Nat) : List Report → Prop where
  | cleared (rs : List Report) : GivenUp capacity (rs ++ [.releaseAll])
  | overrun {rs : List Report} (e : Event) (full : capacity ≤ rs.length) :
      GivenUp capacity (rs ++ [.event e])

theorem GivenUp.ne_nil {rs : List Report} (h : GivenUp capacity rs) : rs ≠ [] := by
  cases h <;> simp

/-- A block that does not end with a release of everything is an overrun. -/
theorem GivenUp.lt_length {front back : List Report} {e : Event}
    (h : GivenUp capacity (front ++ .event e :: back)) (uncleared : .releaseAll ∉ back) :
    capacity < (front ++ .event e :: back).length := by
  generalize hrs : front ++ Report.event e :: back = rs at h
  cases h with
  | cleared =>
      have hlast : (Report.event e :: back).getLast? = some .releaseAll := by
        rw [← List.getLast?_append_cons front, hrs, List.getLast?_concat]
      rcases List.mem_cons.1 (List.mem_of_getLast? hlast) with h | h
      · cases h
      · exact absurd h uncleared
  | overrun _ full =>
      rw [List.length_append, List.length_singleton]
      exact Nat.lt_succ_of_le full

/-- An event for the transport, and the reports that it stands for. -/
inductive Parcel (capacity : Nat) where
  | kept (e : Event)
  /-- A release in the place of reports that were given up. -/
  | lost (rs : List Report) (why : GivenUp capacity rs)
deriving DecidableEq

namespace Parcel

def event : Parcel capacity → Event
  | .kept e => e
  | .lost _ _ => .release

def reports : Parcel capacity → List Report
  | .kept e => [.event e]
  | .lost rs _ => rs

/-- The event was lost, in a block of more reports than the queue has room for. -/
def Overran (e : Event) : Parcel capacity → Prop
  | .kept _ => False
  | .lost rs _ => .event e ∈ rs ∧ capacity < rs.length

theorem reports_ne_nil (p : Parcel capacity) : p.reports ≠ [] := by
  cases p with
  | kept e => exact List.cons_ne_nil _ _
  | lost rs why => exact why.ne_nil

theorem length_le_reports (ps : List (Parcel capacity)) :
    ps.length ≤ (ps.flatMap reports).length := by
  induction ps with
  | nil => exact Nat.le_refl 0
  | cons p ps ih =>
      have hp := List.length_pos_iff.2 p.reports_ne_nil
      rw [List.flatMap_cons, List.length_append, List.length_cons]
      omega

theorem eq_nil_of_reports {ps : List (Parcel capacity)} (h : ps.flatMap reports = []) :
    ps = [] := by
  have hle := length_le_reports ps
  rw [h] at hle
  exact List.eq_nil_of_length_eq_zero (Nat.le_zero.1 hle)

/-- A report is found in the reports of a parcel, and the rest of the reports on either
side of it. -/
theorem exists_split {ps : List (Parcel capacity)} {front back : List Report} {r : Report}
    (h : ps.flatMap reports = front ++ r :: back) :
    ∃ before p after x y, ps = before ++ p :: after ∧ p.reports = x ++ r :: y ∧
      front = before.flatMap reports ++ x ∧ back = y ++ after.flatMap reports := by
  induction ps generalizing front with
  | nil => simp at h
  | cons p ps ih =>
      rw [List.flatMap_cons, List.append_eq_append_iff] at h
      rcases h with ⟨front', rfl, hps⟩ | ⟨rest, hp, hrest⟩
      · obtain ⟨before, q, after, x, y, rfl, hq, rfl, rfl⟩ := ih hps
        exact ⟨p :: before, q, after, x, y, rfl, hq, by simp, rfl⟩
      · cases rest with
        | nil =>
            -- The report is the first one of the parcels that follow.
            rw [List.append_nil] at hp
            have hps : ps.flatMap reports = [] ++ r :: back := hrest.symm
            obtain ⟨before, q, after, x, y, rfl, hq, hx, rfl⟩ := ih hps
            refine ⟨p :: before, q, after, x, y, rfl, hq, ?_, rfl⟩
            rw [List.flatMap_cons, List.append_assoc, ← hx, List.append_nil, hp]
        | cons r' y =>
            obtain ⟨rfl, rfl⟩ := List.cons.inj hrest
            exact ⟨[], p, ps, front, y, rfl, hp, rfl, rfl⟩

/-- An event that no release of everything follows was kept, or it was lost in an
overrun. -/
theorem kept_or_overran {p : Parcel capacity} {front back : List Report} {e : Event}
    (h : p.reports = front ++ .event e :: back) (uncleared : .releaseAll ∉ back) :
    p = .kept e ∨ p.Overran e := by
  cases p with
  | kept e' =>
      have hsingle : [.event e'] = front ++ .event e :: back := h
      rcases List.singleton_eq_append_iff.1 hsingle with ⟨-, hcons⟩ | ⟨-, hcons⟩
      · obtain ⟨he, -⟩ := List.cons.inj hcons
        exact Or.inl (congrArg kept (Report.event.inj he).symm)
      · cases hcons
  | lost rs why =>
      have hrs : rs = front ++ .event e :: back := h
      subst hrs
      exact Or.inr ⟨by simp, why.lt_length uncleared⟩

end Parcel

/-! ## The ledger -/

/-- A delivery with the reports that its events stand for. -/
structure Ledger (capacity : Nat) where
  received : List (Parcel capacity)
  waiting : List (Parcel capacity)

namespace Ledger

def blank (capacity : Nat) : Ledger capacity := ⟨[], []⟩

/-- Everything that waits is given up, with one more report. -/
def giveUp (l : Ledger capacity) (r : Report)
    (why : GivenUp capacity (l.waiting.flatMap Parcel.reports ++ [r])) : Ledger capacity :=
  { l with waiting := [.lost _ why] }

def report (l : Ledger capacity) : Report → Ledger capacity
  | .event e =>
      if room : l.waiting.length < capacity then { l with waiting := l.waiting ++ [.kept e] }
      else
        l.giveUp (.event e)
          (.overrun e (Nat.le_trans (Nat.le_of_not_lt room) (Parcel.length_le_reports _)))
  | .releaseAll => l.giveUp .releaseAll (.cleared _)

def receive (l : Ledger capacity) : Ledger capacity :=
  match l.waiting with
  | [] => l
  | p :: rest => ⟨l.received ++ [p], rest⟩

def step (l : Ledger capacity) : Traffic → Ledger capacity
  | .report r => l.report r
  | .receive => l.receive

def run (l : Ledger capacity) (traffic : List Traffic) : Ledger capacity :=
  traffic.foldl step l

/-- All reports, those of received events first. -/
def reports (l : Ledger capacity) : List Report :=
  (l.received ++ l.waiting).flatMap Parcel.reports

/-- The delivery that the ledger is kept of. -/
def delivery (l : Ledger capacity) : Delivery capacity :=
  ⟨⟨l.waiting.map Parcel.event⟩, l.received.map Parcel.event⟩

/-- A report is appended, or it takes everything that waits down with it. -/
theorem report_cases (l : Ledger capacity) (r : Report) :
    (∃ e, r = .event e ∧ l.waiting.length < capacity ∧
        l.report r = { l with waiting := l.waiting ++ [.kept e] }) ∨
      ((r = .releaseAll ∨ capacity ≤ l.waiting.length) ∧ ∃ why, l.report r = l.giveUp r why) := by
  cases r with
  | event e =>
      by_cases room : l.waiting.length < capacity
      · exact Or.inl ⟨e, rfl, room, dif_pos room⟩
      · exact Or.inr ⟨Or.inr (Nat.le_of_not_lt room), _, dif_neg room⟩
  | releaseAll => exact Or.inr ⟨Or.inl rfl, _, rfl⟩

/-! ## The delivery of the ledger -/

theorem waiting_delivery (l : Ledger capacity) :
    l.delivery.queue.waiting = l.waiting.map Parcel.event := rfl

theorem waiting_report (room : 0 < capacity) (l : Ledger capacity) (r : Report) :
    (l.report r).waiting.map Parcel.event = (l.delivery.queue.report r).waiting := by
  have hlength : l.delivery.queue.waiting.length = l.waiting.length := by
    rw [waiting_delivery, List.length_map]
  rcases report_cases l r with ⟨e, rfl, hlt, h⟩ | ⟨hwhy, why, h⟩
  · rw [h, EventQueue.report, EventQueue.waiting_put_of_lt e (hlength ▸ hlt), waiting_delivery,
      List.map_append]
    rfl
  · have hrelease : (l.delivery.queue.report r).waiting = [.release] := by
      rcases hwhy with rfl | hfull
      · exact EventQueue.waiting_report_releaseAll _ room
      · cases r with
        | event e => exact EventQueue.waiting_put_of_le e room (hlength ▸ hfull)
        | releaseAll => exact EventQueue.waiting_report_releaseAll _ room
    rw [h, hrelease]
    rfl

theorem received_report (l : Ledger capacity) (r : Report) :
    (l.report r).received = l.received := by
  rcases report_cases l r with ⟨e, -, -, h⟩ | ⟨-, why, h⟩
  · rw [h]
  · rw [h]
    rfl

theorem delivery_report (room : 0 < capacity) (l : Ledger capacity) (r : Report) :
    (l.report r).delivery = { l.delivery with queue := l.delivery.queue.report r } := by
  rw [delivery, waiting_report room, received_report]
  rfl

theorem delivery_receive (l : Ledger capacity) :
    l.receive.delivery = l.delivery.receive := by
  unfold receive
  split
  · rename_i h
    simp [delivery, Delivery.receive, EventQueue.receive?, h]
  · rename_i p rest h
    simp [delivery, Delivery.receive, EventQueue.receive?, h]

theorem delivery_step (room : 0 < capacity) (l : Ledger capacity) (use : Traffic) :
    (l.step use).delivery = l.delivery.step use := by
  cases use with
  | report r => exact delivery_report room l r
  | receive => exact delivery_receive l

theorem delivery_run (room : 0 < capacity) (l : Ledger capacity) (traffic : List Traffic) :
    (l.run traffic).delivery = l.delivery.run traffic := by
  induction traffic generalizing l with
  | nil => rfl
  | cons use traffic ih =>
      rw [Delivery.run_cons, ← delivery_step room]
      exact ih (l.step use)

/-! ## Every report has its place -/

theorem reports_step (l : Ledger capacity) (use : Traffic) :
    (l.step use).reports = l.reports ++ use.report?.toList := by
  cases use with
  | report r =>
      have hstep : (l.step (.report r)).reports = (l.report r).reports := rfl
      rw [hstep]
      rcases report_cases l r with ⟨e, rfl, -, h⟩ | ⟨-, why, h⟩
      · rw [h]
        simp [reports, Parcel.reports, Traffic.report?]
      · rw [h]
        simp [reports, giveUp, Parcel.reports, Traffic.report?]
  | receive =>
      have hstep : (l.step .receive).reports = l.receive.reports := rfl
      rw [hstep, receive]
      split
      · simp [Traffic.report?]
      · rename_i p rest h
        simp [reports, h, Traffic.report?]

theorem reports_run (l : Ledger capacity) (traffic : List Traffic) :
    (l.run traffic).reports = l.reports ++ traffic.filterMap Traffic.report? := by
  induction traffic generalizing l with
  | nil => simp [run]
  | cons use traffic ih =>
      have hrun : (l.run (use :: traffic)).reports = ((l.step use).run traffic).reports := rfl
      rw [hrun, ih, reports_step, List.append_assoc]
      cases hreport : use.report? <;> simp [hreport]

/-! ## Events that are received -/

/-- The transport receives report number `k` as an event `e`, right after the parcels
`front`. -/
def Receives (l : Ledger capacity) (k : Nat) (front : List (Parcel capacity)) (e : Event) :
    Prop :=
  ∃ back, l.received = front ++ .kept e :: back ∧ (front.flatMap Parcel.reports).length = k

theorem received_prefix_reports (l : Ledger capacity) :
    l.received.flatMap Parcel.reports <+: l.reports := by
  rw [reports, List.flatMap_append]
  exact List.prefix_append _ _

/-- An event that is received was reported, and the parcels in front of it stand for the
reports before it. -/
theorem Receives.split {l : Ledger capacity} {front : List (Parcel capacity)} {e e' : Event}
    {before after : List Report} (h : l.Receives before.length front e)
    (reported : l.reports <+: before ++ .event e' :: after) :
    e = e' ∧ front.flatMap Parcel.reports = before := by
  obtain ⟨back, hreceived, hlength⟩ := h
  have hprefix := (received_prefix_reports l).trans reported
  rw [hreceived, List.flatMap_append, List.flatMap_cons] at hprefix
  obtain ⟨rest, hrest⟩ := hprefix
  rw [List.append_assoc] at hrest
  obtain ⟨hfront, hcons⟩ := List.append_inj hrest hlength
  exact ⟨Report.event.inj (List.cons.inj hcons).1, hfront⟩

/-- An earlier event that no release of everything follows was received before, or a release
was received in its place; what came in between was reported in between. -/
theorem Receives.preceded {l : Ledger capacity} {front : List (Parcel capacity)}
    {e e' earlier : Event} {before between after : List Report}
    (h : l.Receives (before ++ .event earlier :: between).length front e)
    (reported : l.reports <+: (before ++ .event earlier :: between) ++ .event e' :: after)
    (uncleared : .releaseAll ∉ between) :
    e = e' ∧ ∃ rest q mid, front = rest ++ q :: mid ∧
      (q = .kept earlier ∨ q.Overran earlier) ∧ mid.flatMap Parcel.reports <:+ between := by
  obtain ⟨he, hfront⟩ := h.split reported
  obtain ⟨rest, q, mid, x, y, rfl, hq, -, rfl⟩ := Parcel.exists_split hfront
  have hlast : .releaseAll ∉ y := fun hy => uncleared (List.mem_append_left _ hy)
  exact ⟨he, rest, q, mid, rfl, Parcel.kept_or_overran hq hlast, List.suffix_append _ _⟩

/-- Of two events in a row the second one is received right after the first, or after a
release in its place. -/
theorem Receives.right_after {l : Ledger capacity} {front : List (Parcel capacity)}
    {e e' earlier : Event} {before after : List Report}
    (h : l.Receives (before.length + 1) front e)
    (reported : l.reports <+: before ++ .event earlier :: .event e' :: after) :
    e = e' ∧ ∃ rest q, front = rest ++ [q] ∧ (q = .kept earlier ∨ q.Overran earlier) := by
  have hlength : (before ++ [Report.event earlier]).length = before.length + 1 :=
    List.length_append
  rw [← hlength] at h
  rw [List.append_cons] at reported
  obtain ⟨he, rest, q, mid, rfl, hq, hmid⟩ := h.preceded reported List.not_mem_nil
  have hnone : mid = [] := Parcel.eq_nil_of_reports (List.suffix_nil.1 hmid)
  subst hnone
  exact ⟨he, rest, q, rfl, hq⟩

end Ledger

end Chordboard
