import Chordboard.Switches

/-!
# What a sample does in a chorded mode

One sample moves each slot on its own (`Slot.step`), then the shared timers
take note of the accepted transitions in the order of the switches, and last
some sent switches may be promoted. The lemmas here say what of this a later
argument sees: how a slot gets and keeps its status, and what the transitions
of one tick leave of the chord timer.
-/

namespace Chordboard

namespace Slot

/-! ## One slot -/

/-- Which transition a status and a sample ask for. -/
theorem wanted_cases {status : SwitchStatus} {down : Bool} {t : Transition}
    (h : wanted status down = some t) :
    (t = .press ∧ status = .notPressed ∧ down = true) ∨
      (t = .tap ∧ status = .pressed ∧ down = false) ∨
      (t = .release ∧ (status = .alreadySent ∨ status = .held) ∧ down = false) := by
  cases status <;> cases down <;> simp_all [wanted]

/-- A slot is pressed after a sample if it was before, or if its press was
accepted. -/
theorem step_pressed_iff {now : Nat} {down : Bool} {s : Slot} :
    (s.step now down).1.status = .pressed ↔
      s.status = .pressed ∨ (s.step now down).2 = some .press := by
  rw [status_step]
  cases hmove : (s.step now down).2 with
  | none => simp
  | some t =>
      rcases wanted_cases (wanted_of_step hmove) with ⟨rfl, hs, -⟩ | ⟨rfl, hs, -⟩ | ⟨rfl, hs, -⟩
      · simp [Transition.status]
      · simp [Transition.status, hs]
      · rcases hs with hs | hs <;> simp [Transition.status, hs]

@[simp] theorem timer_promote (s : Slot) : s.promote.timer = s.timer := by
  unfold promote
  split <;> rfl

@[simp] theorem timer_markSent (s : Slot) : s.markSent.timer = s.timer := by
  unfold markSent
  split <;> rfl

@[simp] theorem timer_reuse (s : Slot) : s.reuse.timer = s.timer := by
  unfold reuse
  split <;> rfl

@[simp] theorem isDown_promote (s : Slot) : s.promote.isDown = s.isDown := by
  unfold promote
  split
  · rename_i h
    rw [isDown, isDown, h]
    rfl
  · rfl

@[simp] theorem isDown_markSent (s : Slot) : s.markSent.isDown = s.isDown := by
  unfold markSent
  split
  · rename_i h
    rw [isDown, isDown, h]
    rfl
  · rfl

@[simp] theorem isDown_reuse (s : Slot) : s.reuse.isDown = s.isDown := by
  unfold reuse
  split
  · rename_i h
    rw [h]
    rfl
  · rfl

theorem promote_pressed_iff {s : Slot} : s.promote.status = .pressed ↔ s.status = .pressed := by
  unfold promote
  split
  · rename_i h
    simp [h]
  · exact Iff.rfl

theorem promote_promote (s : Slot) : s.promote.promote = s.promote := by
  unfold promote
  split <;> simp_all

theorem markSent_not_pressed (s : Slot) : s.markSent.status ≠ .pressed := by
  unfold markSent
  split
  · simp
  · assumption

theorem reuse_not_pressed {s : Slot} (h : s.status ≠ .pressed) : s.reuse.status ≠ .pressed := by
  unfold reuse
  split
  · simp
  · exact h

theorem promote_not_alreadySent (s : Slot) : s.promote.status ≠ .alreadySent := by
  unfold promote
  split
  · simp
  · assumption

theorem status_promote_of_alreadySent {s : Slot} (h : s.status = .alreadySent) :
    s.promote.status = .held := by
  rw [promote, if_pos h]

/-- No transition leads to a switch whose chord was sent. -/
theorem status_of_step {now : Nat} {down : Bool} {s : Slot} {status : SwitchStatus}
    (sent : status = .alreadySent ∨ status = .held)
    (h : (s.step now down).1.status = status) : s.status = status := by
  rw [status_step] at h
  cases hmove : (s.step now down).2 with
  | none =>
      rw [hmove] at h
      exact h
  | some m =>
      rw [hmove] at h
      rcases sent with rfl | rfl <;> cases m <;> cases h

theorem alreadySent_of_markSent {s : Slot} (h : s.markSent.status = .alreadySent) :
    s.status = .alreadySent ∨ s.status = .pressed := by
  unfold markSent at h
  split at h
  · exact Or.inr ‹_›
  · exact Or.inl h

/-- A switch that may be reused is held if it is down. -/
theorem reuse_not_alreadySent (s : Slot) : s.reuse.status ≠ .alreadySent := by
  unfold reuse
  split
  · simp
  · rename_i hup
    intro h
    rw [isDown, h] at hup
    exact hup rfl

theorem held_markSent {s : Slot} (h : s.status = .held) : s.markSent.status = .held := by
  rw [markSent, h]
  simpa using h

theorem held_reuse {s : Slot} (h : s.status = .held) : s.reuse.status = .held := by
  rw [reuse, isDown, h]
  rfl

/-- In a gaming mode a switch that does not move keeps its status. -/
theorem status_stepGaming_of_agree {down : Bool} {s : Slot} (h : s.isDown = down) :
    (s.stepGaming down).status = s.status := by
  subst h
  cases hs : s.status <;> simp [stepGaming, gamingStatus, isDown, hs]

end Slot

/-! ## The shared timers -/

namespace Grouping

variable {n : Nat} {now : Nat}

/-- A timer that some transitions start, and no other touches. -/
theorem timer_acceptAll (timer : Grouping n → Timer) (starts : Transition → Bool)
    (accepted : ∀ g m, timer (accept now g m) =
      if starts m.2 then (timer g).start now else timer g)
    (g : Grouping n) (ms : List (Fin n × Transition)) :
    timer (g.acceptAll now ms) =
      if ms.any (fun m => starts m.2) then (timer g).start now else timer g := by
  induction ms generalizing g with
  | nil => rfl
  | cons m ms ih =>
      rw [acceptAll_cons, ih, accepted, List.any_cons]
      cases starts m.2 <;> cases ms.any (fun m => starts m.2) <;> rfl

/-- Releases and taps start the release timer. -/
theorem releaseTimer_acceptAll (g : Grouping n) (ms : List (Fin n × Transition)) :
    (g.acceptAll now ms).releaseTimer =
      if ms.any (fun m => m.2 != .press) then g.releaseTimer.start now else g.releaseTimer := by
  refine timer_acceptAll releaseTimer (fun m => m != .press) ?_ g ms
  rintro g ⟨i, m⟩
  cases m <;> rfl

/-- Every transition starts the held timer. -/
theorem heldTimer_acceptAll (g : Grouping n) (ms : List (Fin n × Transition)) :
    (g.acceptAll now ms).heldTimer =
      if ms = [] then g.heldTimer else g.heldTimer.start now := by
  have haccepted : ∀ (g : Grouping n) (m : Fin n × Transition),
      (accept now g m).heldTimer = if true then g.heldTimer.start now else g.heldTimer := by
    rintro g ⟨i, m⟩
    cases m <;> rfl
  rw [timer_acceptAll heldTimer (fun _ => true) haccepted]
  cases ms <;> rfl

/-- The next starts of the timers use the same delays. -/
structure SameDelays (g g' : Grouping n) : Prop where
  chord : g.chordTimer.delay = g'.chordTimer.delay
  release : g.releaseTimer.delay = g'.releaseTimer.delay
  held : g.heldTimer.delay = g'.heldTimer.delay

theorem SameDelays.refl (g : Grouping n) : g.SameDelays g := ⟨rfl, rfl, rfl⟩

theorem SameDelays.trans {g g' g'' : Grouping n} (h : g.SameDelays g') (h' : g'.SameDelays g'') :
    g.SameDelays g'' :=
  ⟨h.chord.trans h'.chord, h.release.trans h'.release, h.held.trans h'.held⟩

theorem sameDelays_accept (now : Nat) (g : Grouping n) (m : Fin n × Transition) :
    (accept now g m).SameDelays g := by
  obtain ⟨i, m⟩ := m
  cases m <;> exact ⟨rfl, rfl, rfl⟩

/-- No transition changes the delays. -/
theorem sameDelays_acceptAll (now : Nat) (g : Grouping n) (ms : List (Fin n × Transition)) :
    (g.acceptAll now ms).SameDelays g := by
  induction ms generalizing g with
  | nil => exact .refl g
  | cons m ms ih => exact (ih (accept now g m)).trans (sameDelays_accept now g m)

/-- The last of the transitions that is a press or a tap. -/
def lastLoud? (ms : List (Fin n × Transition)) : Option (Fin n × Transition) :=
  (ms.filter fun m => m.2 != .release).getLast?

theorem lastLoud?_cons (m : Fin n × Transition) (ms : List (Fin n × Transition)) :
    lastLoud? (m :: ms) = (lastLoud? ms).or (if m.2 != .release then some m else none) := by
  rw [lastLoud?, lastLoud?, List.filter_cons]
  cases m.2 != .release with
  | false => simp
  | true => rw [if_pos rfl, if_pos rfl, List.getLast?_cons, Option.or_some]

theorem lastLoud?_eq_none_iff {ms : List (Fin n × Transition)} :
    lastLoud? ms = none ↔ ∀ m ∈ ms, m.2 = .release := by
  rw [lastLoud?, List.getLast?_eq_none_iff, List.filter_eq_nil_iff]
  simp

theorem mem_of_lastLoud? {ms : List (Fin n × Transition)} {m : Fin n × Transition}
    (h : lastLoud? ms = some m) : m ∈ ms ∧ m.2 ≠ .release := by
  simpa using List.mem_filter.1 (List.mem_of_getLast? h)

/-- Where the moves come in the order of some numbers of the switches, the last press or tap is
that of the last switch that has one. -/
theorem eq_or_lt_lastLoud? {number : Fin n → Fin n} {ms : List (Fin n × Transition)}
    (sorted : ms.Pairwise fun m m' => number m.1 < number m'.1)
    {last m : Fin n × Transition} (hlast : lastLoud? ms = some last) (hm : m ∈ ms)
    (loud : m.2 ≠ .release) : m = last ∨ number m.1 < number last.1 := by
  have hmem : m ∈ ms.filter fun m => m.2 != .release :=
    List.mem_filter.2 ⟨hm, by simpa using loud⟩
  have hsorted := sorted.filter fun m => m.2 != .release
  obtain ⟨front, hfront⟩ := List.getLast?_eq_some_iff.1 hlast
  rw [hfront] at hmem hsorted
  rcases List.mem_append.1 hmem with hbefore | hself
  · exact Or.inr ((List.pairwise_append.1 hsorted).2.2 m hbefore last List.mem_cons_self)
  · exact Or.inl (List.mem_singleton.1 hself)

/-- The last press or tap is a tap exactly if the tap of some switch comes after all presses. -/
theorem lastLoud?_tap_iff (number : Fin n → Fin n) {ms : List (Fin n × Transition)}
    (sorted : ms.Pairwise fun m m' => number m.1 < number m'.1) :
    (∃ k, lastLoud? ms = some (k, .tap)) ↔
      ∃ k, (k, .tap) ∈ ms ∧ ∀ p, (p, .press) ∈ ms → number p < number k := by
  constructor
  · rintro ⟨k, hlast⟩
    refine ⟨k, (mem_of_lastLoud? hlast).1, fun p hp => ?_⟩
    rcases eq_or_lt_lastLoud? sorted hlast hp nofun with heq | hlt
    · cases heq
    · exact hlt
  · rintro ⟨k, hk, hpresses⟩
    cases hlast : lastLoud? ms with
    | none => cases lastLoud?_eq_none_iff.1 hlast _ hk
    | some last =>
        obtain ⟨j, move⟩ := last
        obtain ⟨hj, loud⟩ := mem_of_lastLoud? hlast
        cases move with
        | tap => exact ⟨j, rfl⟩
        | press =>
            have hjk := hpresses j hj
            rcases eq_or_lt_lastLoud? sorted hlast hk nofun with heq | hkj
            · cases heq
            · exact absurd hkj (Fin.lt_asymm hjk)
        | release => exact absurd rfl loud

/-- The chord timer goes by the last press or tap: a press starts it, a tap makes it run out, and
whatever was before that has no effect. -/
theorem chordTimer_acceptAll (g : Grouping n) (ms : List (Fin n × Transition)) :
    (g.acceptAll now ms).chordTimer =
      match lastLoud? ms with
      | none => g.chordTimer
      | some (_, .tap) => g.chordTimer.expire
      | some _ => g.chordTimer.start now := by
  induction ms generalizing g with
  | nil => rfl
  | cons m ms ih =>
      have hdelay := (sameDelays_accept now g m).chord
      rw [acceptAll_cons, ih, lastLoud?_cons]
      cases lastLoud? ms with
      | none =>
          obtain ⟨i, m⟩ := m
          cases m <;> rfl
      | some later =>
          obtain ⟨j, later⟩ := later
          rw [Option.some_or]
          cases later <;> simp [Timer.start, Timer.startWith, Timer.expire, hdelay]

/-- Releases leave the chord timer alone. -/
theorem chordTimer_acceptAll_of_releases {g : Grouping n} {ms : List (Fin n × Transition)}
    (h : ∀ m ∈ ms, m.2 = .release) : (g.acceptAll now ms).chordTimer = g.chordTimer := by
  rw [chordTimer_acceptAll, lastLoud?_eq_none_iff.2 h]

/-- Where no tap is accepted, the presses of a tick start the chord timer anew. -/
theorem chordTimer_acceptAll_of_press {g : Grouping n} {ms : List (Fin n × Transition)}
    (htap : ∀ m ∈ ms, m.2 ≠ .tap) (hpress : ∃ m ∈ ms, m.2 = .press) :
    (g.acceptAll now ms).chordTimer = g.chordTimer.start now := by
  rw [chordTimer_acceptAll]
  cases hlast : lastLoud? ms with
  | none =>
      obtain ⟨m, hm, hmove⟩ := hpress
      rw [lastLoud?_eq_none_iff.1 hlast m hm] at hmove
      cases hmove
  | some m =>
      obtain ⟨hm, hloud⟩ := mem_of_lastLoud? hlast
      obtain ⟨i, move⟩ := m
      cases move with
      | press => rfl
      | release => exact absurd rfl hloud
      | tap => exact absurd rfl (htap _ hm)

/-- No transition turns the release timer off, and those that are no presses turn it on. -/
theorem releaseTimer_on_acceptAll {g : Grouping n} {ms : List (Fin n × Transition)}
    (h : g.releaseTimer.isDisabled = false ∨ ∃ m ∈ ms, m.2 ≠ .press) :
    (g.acceptAll now ms).releaseTimer.isDisabled = false := by
  rw [releaseTimer_acceptAll]
  split
  · rfl
  · rename_i hpresses
    rcases h with on | hother
    · exact on
    · exact absurd (by simpa using hother) hpresses

/-- No transition turns the chord timer off, and those that are no releases turn it on. -/
theorem chordTimer_on_acceptAll {g : Grouping n} {ms : List (Fin n × Transition)}
    (h : g.chordTimer.isDisabled = false ∨ ∃ m ∈ ms, m.2 ≠ .release) :
    (g.acceptAll now ms).chordTimer.isDisabled = false := by
  rw [chordTimer_acceptAll]
  cases hlast : lastLoud? ms with
  | none =>
      rcases h with on | ⟨m, hm, hloud⟩
      · exact on
      · exact absurd (lastLoud?_eq_none_iff.1 hlast m hm) hloud
  | some m =>
      obtain ⟨i, move⟩ := m
      cases move <;> rfl

end Grouping

/-! ## All slots -/

namespace Switches

variable {n : Nat}

/-- A sample in a chorded mode promotes the sent switches: the held timer has run out, or there
was a double tap. -/
def promotes (now : Nat) (sample : Fin n → Bool) (s : Switches n) : Bool :=
  (s.grouping.acceptAll now (s.transitions now sample)).heldTimer.isDone now ||
    (s.grouping.acceptAll now (s.transitions now sample)).doubleTapped

/-- A sample in a chorded mode as a whole: the slots step, the shared timers take note of the
transitions, and if the held timer has run out or there was a double tap, the sent switches are
promoted. -/
theorem updateChorded_eq (now : Nat) (sample : Fin n → Bool) (s : Switches n) :
    s.updateChorded now sample =
      { s with
        slots := if s.promotes now sample then (s.stepSlots now sample).map Slot.promote
          else s.stepSlots now sample
        grouping := { s.grouping.acceptAll now (s.transitions now sample) with
          heldTimer :=
            ((s.grouping.acceptAll now (s.transitions now sample)).heldTimer.take now).2
          doubleTapped := false } } := by
  have hslots : (s.debounce now sample).slots = s.stepSlots now sample := rfl
  have hgrouping : (s.debounce now sample).grouping =
      s.grouping.acceptAll now (s.transitions now sample) := rfl
  have hchanged : (s.debounce now sample).gamingChanged = s.gamingChanged := rfl
  unfold updateChorded promotes
  rw [← hslots, ← hgrouping, ← hchanged]
  generalize s.debounce now sample = w
  obtain ⟨slots, ⟨chord, release, held, lastReleased, doubleTapped⟩, changed⟩ := w
  unfold checkHeld checkDoubleTap
  -- Where both questions are answered with yes, the second promotion finds nothing.
  cases hdone : held.isDone now <;> cases doubleTapped <;>
    simp [promoteSent, Timer.take, hdone, Vector.map_map, Slot.promote_promote, Function.comp_def]

/-- After a sample every slot is where its step left it, or promoted from
there. -/
theorem slot_updateChorded (now : Nat) (sample : Fin n → Bool) (s : Switches n) (i : Fin n) :
    (s.updateChorded now sample).slots[i] =
      if s.promotes now sample then (s.slots[i].step now (sample i)).1.promote
      else (s.slots[i].step now (sample i)).1 := by
  rw [updateChorded_eq]
  cases s.promotes now sample <;> simp

/-- The transitions of a sample come in the order of the switches, at most one of each. -/
theorem transitions_sorted (now : Nat) (sample : Fin n → Bool) (s : Switches n) :
    (s.transitions now sample).Pairwise fun m m' => m.1 < m'.1 := by
  refine List.Pairwise.filterMap _ ?_ (List.pairwise_lt_finRange n)
  intro i j hij m hm m' hm'
  obtain ⟨_, -, rfl⟩ := Option.map_eq_some_iff.1 hm
  obtain ⟨_, -, rfl⟩ := Option.map_eq_some_iff.1 hm'
  exact hij

theorem chordTimer_updateChorded (now : Nat) (sample : Fin n → Bool) (s : Switches n) :
    (s.updateChorded now sample).grouping.chordTimer =
      (s.grouping.acceptAll now (s.transitions now sample)).chordTimer := by
  rw [updateChorded_eq]

theorem releaseTimer_updateChorded (now : Nat) (sample : Fin n → Bool) (s : Switches n) :
    (s.updateChorded now sample).grouping.releaseTimer =
      (s.grouping.acceptAll now (s.transitions now sample)).releaseTimer := by
  rw [updateChorded_eq]

theorem gamingChanged_updateChorded (now : Nat) (sample : Fin n → Bool) (s : Switches n) :
    (s.updateChorded now sample).gamingChanged = s.gamingChanged := by
  rw [updateChorded_eq]

theorem updateChorded_pressed_iff {now : Nat} {sample : Fin n → Bool} {s : Switches n}
    {i : Fin n} :
    (s.updateChorded now sample).slots[i].status = .pressed ↔
      s.slots[i].status = .pressed ∨ (i, .press) ∈ s.transitions now sample := by
  rw [mem_transitions, ← Slot.step_pressed_iff, slot_updateChorded]
  split
  · exact Slot.promote_pressed_iff
  · exact Iff.rfl

/-- A slot that goes through a transition other than a release is pressed
then. -/
theorem pressed_of_mem_transitions {now : Nat} {sample : Fin n → Bool} {s : Switches n}
    {i : Fin n} {t : Transition} (h : (i, t) ∈ s.transitions now sample) (ht : t ≠ .release) :
    (s.updateChorded now sample).slots[i].status = .pressed := by
  rw [updateChorded_pressed_iff]
  cases t with
  | press => exact Or.inr h
  | release => exact absurd rfl ht
  | tap =>
      have hwanted := Slot.wanted_of_step (mem_transitions.1 h)
      rcases Slot.wanted_cases hwanted with ⟨h', -⟩ | ⟨-, hs, -⟩ | ⟨h', -⟩
      · cases h'
      · exact Or.inl hs
      · cases h'

end Switches

end Chordboard
