import Chordboard.Proofs.Engine.ChordDelivery

/-!
# Stable presses

A switch that is up for the debounce delay and then down for it is pressed
again, with one exception: if it was tapped, its slot was put back to pressed so
that the tap is sent, and the release that the up samples stood for was used up
by that. Unless the switch stays up for another delay, the next press is not
seen.

Over a stretch of equal samples all that counts is what the debounce timer was
doing at its start. `Settled` and `Lingering` are what up samples can leave behind,
`Pressing` what down samples do.
-/

namespace Chordboard

variable {B n : Nat} {reg : Registry B} {i : Fin n}

namespace Tick

/-- The move of one switch that the tick accepts. -/
def move? (reg : Registry B) (i : Fin n) (t : Tick B n) : Option Transition :=
  if t.gaming reg then none else (t.before.switches.slots[i].step t.now (t.down i)).2

/-- The last move of a switch. -/
def lastMove? (reg : Registry B) (i : Fin n) (ts : List (Tick B n)) : Option Transition :=
  ts.foldl (fun last t => (t.move? reg i).or last) none

/-- At least two ticks, of which the first and the last are `delay` apart. -/
def Lasts (delay : Nat) (ts : List (Tick B n)) : Prop :=
  ∃ first mid last, ts = first :: (mid ++ [last]) ∧ first.now + delay ≤ last.now

/-- What holds of all ticks of a stretch holds of its ends and between them. -/
theorem Lasts.ends {delay : Nat} {ts : List (Tick B n)} (h : Lasts delay ts)
    {C : Tick B n → Prop} (all : ∀ t ∈ ts, C t) :
    ∃ first mid last, ts = first :: (mid ++ [last]) ∧ first.now + delay ≤ last.now ∧
      C first ∧ (∀ t ∈ mid, C t) ∧ C last := by
  obtain ⟨first, mid, last, rfl, late⟩ := h
  refine ⟨first, mid, last, rfl, late, all first List.mem_cons_self, fun t ht => ?_, ?_⟩
  · exact all t (List.mem_cons_of_mem first (List.mem_append_left _ ht))
  · exact all last (List.mem_cons_of_mem first (List.mem_append_right _ List.mem_cons_self))

theorem lastMove?_concat (ts : List (Tick B n)) (t : Tick B n) :
    lastMove? reg i (ts ++ [t]) = (t.move? reg i).or (lastMove? reg i ts) := by
  simp [lastMove?, List.foldl_append]

variable {t : Tick B n}

theorem move?_of_calm (calm : t.gaming reg = false) :
    t.move? reg i = (t.before.switches.slots[i].step t.now (t.down i)).2 := by
  rw [move?, calm]
  rfl

/-- A press is accepted exactly where a slot goes from not pressed to pressed. -/
theorem move?_eq_press_iff (calm : t.gaming reg = false) :
    t.move? reg i = some .press ↔
      t.before.switches.slots[i].status = .notPressed ∧
        (t.sampled reg).slots[i].status = .pressed := by
  have hmem : i ∈ t.presses reg ↔ t.move? reg i = some .press := by
    rw [mem_presses, moves_of_calm calm, Switches.mem_transitions, move?_of_calm calm]
  rw [sampled_pressed_iff calm, hmem]
  constructor
  · intro h
    refine ⟨?_, Or.inr h⟩
    rw [move?_of_calm calm] at h
    rcases Slot.wanted_cases (Slot.wanted_of_step h) with ⟨-, hs, -⟩ | ⟨h', -⟩ | ⟨h', -⟩
    · exact hs
    · cases h'
    · cases h'
  · rintro ⟨hs, h | h⟩
    · rw [hs] at h
      cases h
    · exact h

end Tick

namespace Engine

open Tick

variable {e : Engine B n}

/-! ## Debounce timers -/

/-- The debounce timer is off, or it has been running since one of the ticks. -/
def Debouncing (delay : Nat) (ts : List (Tick B n)) (s : Slot) : Prop :=
  s.timer.isDisabled = true ∨ ∃ t ∈ ts, s.timer.state = .running t.now delay

/-- What the stretches ask of every tick. -/
structure Regular (reg : Registry B) (delay : Nat) (t : Tick B n) : Prop where
  calm : t.gaming reg = false
  fixed : t.before.settings.debounce = delay
  tuned : Tuned t.before

theorem Regular.delay {delay : Nat} {t : Tick B n} (h : Regular reg delay t) (i : Fin n) :
    t.before.switches.slots[i].timer.delay = delay :=
  (h.tuned.debounce i).trans h.fixed

theorem Regular.debouncing {delay : Nat} {t : Tick B n} (h : Regular reg delay t)
    {ts : List (Tick B n)} (hs : Debouncing delay ts t.before.switches.slots[i]) :
    Debouncing delay (ts ++ [t]) (t.after reg).switches.slots[i] := by
  unfold Debouncing
  rw [(slot_after h.calm i).1]
  -- Agreement turns the timer off; a difference starts it, waits, or is accepted.
  by_cases agree : t.before.switches.slots[i].isDown = t.down i
  · rw [Slot.step_of_agree t.now agree]
    exact Or.inl rfl
  rcases hs with off | ⟨t', ht', running⟩
  · obtain ⟨-, -, hstate⟩ := Slot.step_of_idle t.now agree off
    rw [h.delay] at hstate
    exact Or.inr ⟨t, List.mem_append_right _ List.mem_cons_self, hstate⟩
  · by_cases early : t.now - t'.now < delay
    · obtain ⟨-, -, hstate⟩ := Slot.step_of_early agree running early
      exact Or.inr ⟨t', List.mem_append_left _ ht', hstate⟩
    · obtain ⟨m, -, -, -, hoff⟩ := Slot.step_of_due agree running (Nat.not_lt.1 early)
      exact Or.inl hoff

/-! ## Up for the whole delay -/

/-- The up samples have been taken in: the switch counts as up, unless its last
move was a tap. -/
def Settled (reg : Registry B) (i : Fin n) (ts : List (Tick B n)) (s : Slot) : Prop :=
  (lastMove? reg i ts = some .tap ∧ s.isDown = true) ∨
    (lastMove? reg i ts ≠ some .tap ∧ s.isDown = false ∧ s.timer.isDisabled = true)

/-- The switch counts as down still, and its timer has been running at least since
the time `first`. -/
def Lingering (reg : Registry B) (i : Fin n) (delay first : Nat) (ts : List (Tick B n))
    (s : Slot) : Prop :=
  lastMove? reg i ts = none ∧ s.isDown = true ∧
    ∃ start ≤ first, s.timer.state = .running start delay

variable {delay first : Nat} {t : Tick B n} {ts : List (Tick B n)}

theorem differ_of_up {s : Slot} (hdown : s.isDown = true) (up : t.down i = false) :
    s.isDown ≠ t.down i := by
  rw [hdown, up]
  exact nofun

/-- A move that an up sample makes settles the switch. -/
theorem settled_of_move (calm : t.gaming reg = false) {m : Transition}
    (hmove : (t.before.switches.slots[i].step t.now (t.down i)).2 = some m)
    (hdown : (t.before.switches.slots[i].step t.now (t.down i)).1.isDown = (m != .release))
    (hoff : (t.before.switches.slots[i].step t.now (t.down i)).1.timer.isDisabled = true)
    (up : t.down i = false) : Settled reg i (ts ++ [t]) (t.after reg).switches.slots[i] := by
  have hlast : lastMove? reg i (ts ++ [t]) = some m := by
    rw [lastMove?_concat, move?_of_calm calm, hmove, Option.some_or]
  unfold Settled
  rw [hlast, (slot_after calm i).1, (slot_after calm i).2, hdown, hoff]
  cases m with
  | press =>
      -- No up sample asks for a press.
      have hwanted := Slot.wanted_of_step hmove
      rw [up] at hwanted
      rcases Slot.wanted_cases hwanted with ⟨-, -, h⟩ | ⟨h, -⟩ | ⟨h, -⟩ <;> cases h
  | tap => exact Or.inl ⟨rfl, rfl⟩
  | release => exact Or.inr ⟨nofun, rfl, rfl⟩

theorem Settled.tick (h : Regular reg delay t) (up : t.down i = false)
    (hs : Settled reg i ts t.before.switches.slots[i]) :
    Settled reg i (ts ++ [t]) (t.after reg).switches.slots[i] := by
  rcases hs with ⟨hlast, hdown⟩ | ⟨hlast, hup, -⟩
  · -- After a tap the slot counts as down, and may be released or tapped once more.
    have differ := differ_of_up hdown up
    rcases Slot.step_differ_cases t.now differ with ⟨hnone, hsame⟩ | ⟨m, hmove, -, hd, ho⟩
    · refine Or.inl ⟨?_, ?_⟩
      · rw [lastMove?_concat, move?_of_calm h.calm, hnone, Option.none_or, hlast]
      · rw [(slot_after h.calm i).2, hsame, hdown]
    · exact settled_of_move h.calm hmove hd ho up
  · have agree : t.before.switches.slots[i].isDown = t.down i := by rw [hup, up]
    have hstep := Slot.step_of_agree t.now agree
    refine Or.inr ⟨?_, ?_, ?_⟩
    · rw [lastMove?_concat, move?_of_calm h.calm, hstep, Option.none_or]
      exact hlast
    · rw [(slot_after h.calm i).2, hstep]
      exact hup
    · rw [(slot_after h.calm i).1, hstep]
      rfl

/-- A tick leaves a switch lingering only until the delay is over. -/
theorem Lingering.tick (h : Regular reg delay t) (up : t.down i = false)
    (hs : Lingering reg i delay first ts t.before.switches.slots[i]) :
    Settled reg i (ts ++ [t]) (t.after reg).switches.slots[i] ∨
      (Lingering reg i delay first (ts ++ [t]) (t.after reg).switches.slots[i] ∧
        t.now < first + delay) := by
  obtain ⟨hlast, hdown, start, hle, running⟩ := hs
  have differ := differ_of_up hdown up
  by_cases early : t.now - start < delay
  · obtain ⟨hnone, hsame, hstate⟩ := Slot.step_of_early differ running early
    refine Or.inr ⟨⟨?_, ?_, start, hle, ?_⟩, by omega⟩
    · rw [lastMove?_concat, move?_of_calm h.calm, hnone, Option.none_or, hlast]
    · rw [(slot_after h.calm i).2, hsame, hdown]
    · rw [(slot_after h.calm i).1, hstate]
  · obtain ⟨m, hmove, -, hd, ho⟩ := Slot.step_of_due differ running (Nat.not_lt.1 early)
    exact Or.inl (settled_of_move h.calm hmove hd ho up)

/-- The first up sample. -/
theorem Debouncing.tick_up (h : Regular reg delay t) (up : t.down i = false)
    (hs : Debouncing delay ts t.before.switches.slots[i]) (order : ∀ t' ∈ ts, t'.now ≤ t.now) :
    Settled reg i [t] (t.after reg).switches.slots[i] ∨
      Lingering reg i delay t.now [t] (t.after reg).switches.slots[i] := by
  have hempty : lastMove? reg i ([] : List (Tick B n)) = none := rfl
  cases hdown : t.before.switches.slots[i].isDown with
  | false =>
      -- A press that was about to be accepted is given up.
      have hstep := Slot.step_of_agree t.now (hdown.trans up.symm)
      refine Or.inl (Or.inr ⟨?_, ?_, ?_⟩)
      · rw [← List.nil_append [t], lastMove?_concat, move?_of_calm h.calm, hstep, hempty]
        exact nofun
      · rw [(slot_after h.calm i).2, hstep]
        exact hdown
      · rw [(slot_after h.calm i).1, hstep]
        rfl
  | true =>
      rcases hs with off | ⟨t', ht', running⟩
      · have differ := differ_of_up hdown up
        obtain ⟨hnone, hsame, hstate⟩ := Slot.step_of_idle t.now differ off
        refine Or.inr ⟨?_, ?_, t.now, Nat.le_refl _, ?_⟩
        · rw [← List.nil_append [t], lastMove?_concat, move?_of_calm h.calm, hnone, hempty]
          rfl
        · rw [(slot_after h.calm i).2, hsame, hdown]
        · rw [(slot_after h.calm i).1, hstate, h.delay]
      · have lingering : Lingering reg i delay t.now [] t.before.switches.slots[i] :=
          ⟨hempty, hdown, t'.now, order t' ht', running⟩
        exact (lingering.tick h up).imp_right And.left

theorem Settled.congr {s s' : Slot} (status : s'.status = s.status)
    (state : s'.timer.state = s.timer.state) (h : Settled reg i ts s) : Settled reg i ts s' := by
  unfold Settled Slot.isDown Timer.isDisabled at *
  rw [status, state]
  exact h

theorem Lingering.congr {s s' : Slot} (status : s'.status = s.status)
    (state : s'.timer.state = s.timer.state) (h : Lingering reg i delay first ts s) :
    Lingering reg i delay first ts s' := by
  unfold Lingering Slot.isDown at *
  rw [status, state]
  exact h

theorem Debouncing.congr {s s' : Slot} (state : s'.timer.state = s.timer.state)
    (h : Debouncing delay ts s) : Debouncing delay ts s' := by
  unfold Debouncing Timer.isDisabled at *
  rw [state]
  exact h

/-- Up samples for the whole delay settle a switch, whatever it did before. -/
theorem settled_of_up {settings : Settings} {inputs : List (Input n)}
    {front ups back : List (Tick B n)}
    (split : (fresh B n settings).ticks reg inputs = front ++ (ups ++ back))
    (regular : ∀ t ∈ front ++ ups, Regular reg delay t)
    (order : (front ++ ups).Pairwise fun s t => s.now ≤ t.now)
    (up : ∀ t ∈ ups, t.down i = false) (lasts : Lasts delay ups) :
    ∃ (e : Engine B n) (later : List (Input n)), e.ticks reg later = back ∧
      Settled reg i ups e.switches.slots[i] := by
  have hups : ∀ t ∈ ups, Regular reg delay t ∧ t.down i = false :=
    fun t ht => ⟨regular t (List.mem_append_right _ ht), up t ht⟩
  obtain ⟨u, mid, u', rfl, late, hu, hmid, hu'⟩ := lasts.ends hups
  have hsplit : (fresh B n settings).ticks reg inputs = front ++ u :: (mid ++ u' :: back) := by
    rw [split, List.cons_append, List.append_assoc]
    rfl
  -- What the debounce timer is doing at the first up sample.
  have hstart : Debouncing delay ([] ++ front) u.before.switches.slots[i] := by
    refine slot_between (C := Regular reg delay) (Q := Debouncing delay) []
      (fun ts s s' _ state => Debouncing.congr state) (fun ts t h => h.debouncing) hsplit
      (fun t ht => regular t (List.mem_append_left _ ht)) ?_
    exact Or.inl (by simp [fresh, Switches.new, Slot.new])
  have hfirst := hstart.tick_up hu.1 hu.2 fun t ht =>
    (List.pairwise_append.1 order).2.2 t ht u List.mem_cons_self
  obtain ⟨-, later, -, -, -, hlater⟩ := exists_inputs_of_ticks hsplit
  have hbetween : Settled reg i ([u] ++ mid) u'.before.switches.slots[i] ∨
      Lingering reg i delay u.now ([u] ++ mid) u'.before.switches.slots[i] := by
    refine slot_between (C := fun t => Regular reg delay t ∧ t.down i = false)
      (Q := fun ts s => Settled reg i ts s ∨ Lingering reg i delay u.now ts s) [u]
      (fun ts s s' status state => Or.imp (Settled.congr status state)
        (Lingering.congr status state)) ?_ hlater hmid hfirst
    rintro ts t ⟨h, hup⟩ (hs | hs)
    · exact Or.inl (hs.tick h hup)
    · exact (hs.tick h hup).imp_right And.left
  obtain ⟨-, later', -, -, -, hback⟩ := exists_inputs_of_ticks hlater
  refine ⟨u'.after reg, later', hback, ?_⟩
  rcases hbetween with hs | hs
  · exact hs.tick hu'.1 hu'.2
  · rcases hs.tick hu'.1 hu'.2 with hsettled | ⟨-, early⟩
    · exact hsettled
    · -- The last sample comes when the delay is over.
      omega

/-! ## Down for the whole delay -/

/-- A switch that counts as down is not pressed again by down samples. -/
theorem move?_eq_none_of_down {inputs : List (Input n)} {downs back : List (Tick B n)}
    (split : e.ticks reg inputs = downs ++ back)
    (down : ∀ t ∈ downs, Regular reg delay t ∧ t.down i = true)
    (start : e.switches.slots[i].isDown = true) : ∀ t ∈ downs, t.move? reg i = none := by
  intro t ht
  obtain ⟨before, after, rfl⟩ := List.append_of_mem ht
  rw [List.append_assoc] at split
  have hagree {t : Tick B n} (h : Regular reg delay t ∧ t.down i = true)
      (hs : t.before.switches.slots[i].isDown = true) :
      t.before.switches.slots[i].step t.now (t.down i) =
        ({ t.before.switches.slots[i] with timer := t.before.switches.slots[i].timer.disable },
          none) :=
    Slot.step_of_agree t.now (hs.trans h.2.symm)
  have hbefore : t.before.switches.slots[i].isDown = true := by
    refine slot_between (C := fun t => Regular reg delay t ∧ t.down i = true)
      (Q := fun _ s => s.isDown = true) [] ?_ ?_ split
      (fun t ht => down t (List.mem_append_left _ ht)) start
    · intro _ s s' status _ hs
      rw [Slot.isDown, status]
      exact hs
    · intro _ t h hs
      rw [(slot_after h.1.calm i).2, hagree h hs]
      exact hs
  have h := down t ht
  rw [move?_of_calm h.1.calm, hagree h hbefore]

theorem differ_of_down {s : Slot} (hup : s.isDown = false) (down : t.down i = true) :
    s.isDown ≠ t.down i := by
  rw [hup, down]
  exact nofun

/-- A press was accepted, or the timer has been running for it since `first`. -/
def Pressing (reg : Registry B) (i : Fin n) (delay first : Nat) (ts : List (Tick B n))
    (s : Slot) : Prop :=
  (∃ t ∈ ts, t.move? reg i = some .press) ∨
    (s.isDown = false ∧ s.timer.state = .running first delay)

theorem Pressing.congr {s s' : Slot} (status : s'.status = s.status)
    (state : s'.timer.state = s.timer.state) (h : Pressing reg i delay first ts s) :
    Pressing reg i delay first ts s' := by
  unfold Pressing Slot.isDown at *
  rw [status, state]
  exact h

/-- A tick leaves a press pending only until the delay is over. -/
theorem Pressing.tick (h : Regular reg delay t) (down : t.down i = true)
    (hs : Pressing reg i delay first ts t.before.switches.slots[i]) :
    (∃ t' ∈ ts ++ [t], t'.move? reg i = some .press) ∨
      (Pressing reg i delay first (ts ++ [t]) (t.after reg).switches.slots[i] ∧
        t.now < first + delay) := by
  rcases hs with ⟨t', ht', hpress⟩ | ⟨hup, running⟩
  · exact Or.inl ⟨t', List.mem_append_left _ ht', hpress⟩
  have differ := differ_of_down hup down
  by_cases early : t.now - first < delay
  · obtain ⟨-, hsame, hstate⟩ := Slot.step_of_early differ running early
    refine Or.inr ⟨Or.inr ⟨?_, ?_⟩, by omega⟩
    · rw [(slot_after h.calm i).2, hsame, hup]
    · rw [(slot_after h.calm i).1, hstate]
  · obtain ⟨m, hmove, hwanted, -⟩ := Slot.step_of_due differ running (Nat.not_lt.1 early)
    refine Or.inl ⟨t, List.mem_append_right _ List.mem_cons_self, ?_⟩
    rw [move?_of_calm h.calm, hmove]
    rw [down] at hwanted
    rcases Slot.wanted_cases hwanted with ⟨rfl, -⟩ | ⟨-, -, h'⟩ | ⟨-, -, h'⟩
    · rfl
    · cases h'
    · cases h'

/-- The first down sample of a switch that is up starts its timer, and the press is
accepted once the delay is over. -/
theorem exists_press_of_down {inputs : List (Input n)} {downs back : List (Tick B n)}
    (split : e.ticks reg inputs = downs ++ back)
    (down : ∀ t ∈ downs, Regular reg delay t ∧ t.down i = true) (lasts : Lasts delay downs)
    (up : e.switches.slots[i].isDown = false)
    (off : e.switches.slots[i].timer.isDisabled = true) :
    ∃ t ∈ downs, t.move? reg i = some .press := by
  obtain ⟨d, mid, d', rfl, late, hd, hmid, hd'⟩ := lasts.ends down
  have hsplit : e.ticks reg inputs = d :: (mid ++ d' :: back) := by
    rw [split, List.cons_append, List.append_assoc]
    rfl
  obtain ⟨hstatus, hstate⟩ := slot_of_ticks_cons (i := i) hsplit
  have hstart : Pressing reg i delay d.now [d] (d.after reg).switches.slots[i] := by
    have hup : d.before.switches.slots[i].isDown = false := by
      rw [Slot.isDown, hstatus]
      exact up
    have hoff : d.before.switches.slots[i].timer.isDisabled = true := by
      rw [Timer.isDisabled, hstate]
      exact off
    obtain ⟨-, hsame, hrunning⟩ := Slot.step_of_idle d.now (differ_of_down hup hd.2) hoff
    refine Or.inr ⟨?_, ?_⟩
    · rw [(slot_after hd.1.calm i).2, hsame, hup]
    · rw [(slot_after hd.1.calm i).1, hrunning, hd.1.delay]
  have hcut : e.ticks reg inputs = [] ++ d :: (mid ++ d' :: back) := hsplit
  obtain ⟨-, later, -, -, -, hlater⟩ := exists_inputs_of_ticks hcut
  have hbetween : Pressing reg i delay d.now ([d] ++ mid) d'.before.switches.slots[i] := by
    refine slot_between (C := fun t => Regular reg delay t ∧ t.down i = true)
      (Q := Pressing reg i delay d.now) [d] (fun ts s s' => Pressing.congr) ?_ hlater hmid hstart
    intro ts t h hs
    rcases hs.tick h.1 h.2 with hpress | ⟨hs, -⟩
    · exact Or.inl hpress
    · exact hs
  rcases hbetween.tick hd'.1 hd'.2 with hpress | ⟨-, early⟩
  · exact hpress
  · omega

/-! ## Stable presses -/

/-- **When a stable press is accepted.** In a run without gaming modes and with one
debounce delay, let a switch be up at two or more ticks in a row that span the
delay, and then down at two or more ticks that span it. Its slot goes from not
pressed to pressed at one of the latter, unless its last move at the former was a
tap; in that case it does so at none of them. -/
theorem press_of_stable_iff {settings : Settings} {inputs : List (Input n)} {delay : Nat}
    {front ups downs back : List (Tick B n)}
    (split : (fresh B n settings).ticks reg inputs = front ++ (ups ++ (downs ++ back)))
    (calm : ∀ t ∈ front ++ (ups ++ downs), t.gaming reg = false)
    (fixed : ∀ t ∈ front ++ (ups ++ downs), t.before.settings.debounce = delay)
    (order : (front ++ (ups ++ downs)).Pairwise fun s t => s.now ≤ t.now)
    (up : ∀ t ∈ ups, t.down i = false) (upLasts : Lasts delay ups)
    (down : ∀ t ∈ downs, t.down i = true) (downLasts : Lasts delay downs) :
    (∃ t ∈ downs, t.before.switches.slots[i].status = .notPressed ∧
        (t.sampled reg).slots[i].status = .pressed) ↔
      lastMove? reg i ups ≠ some .tap := by
  rw [← List.append_assoc] at calm fixed order
  have regular : ∀ t ∈ front ++ ups ++ downs, Regular reg delay t := by
    intro t ht
    have hmem : t ∈ (fresh B n settings).ticks reg inputs := by
      rw [split, ← List.append_assoc, ← List.append_assoc]
      exact List.mem_append_left _ ht
    exact ⟨calm t ht, fixed t ht, tuned_of_mem_ticks hmem⟩
  have hdowns : ∀ t ∈ downs, Regular reg delay t ∧ t.down i = true :=
    fun t ht => ⟨regular t (List.mem_append_right _ ht), down t ht⟩
  obtain ⟨e, later, hticks, hsettled⟩ := settled_of_up split
    (fun t ht => regular t (List.mem_append_left _ ht)) (List.pairwise_append.1 order).1 up upLasts
  have hpress : (∃ t ∈ downs, t.before.switches.slots[i].status = .notPressed ∧
      (t.sampled reg).slots[i].status = .pressed) ↔
        ∃ t ∈ downs, t.move? reg i = some .press := by
    constructor
    · rintro ⟨t, ht, h⟩
      exact ⟨t, ht, (move?_eq_press_iff (hdowns t ht).1.calm).2 h⟩
    · rintro ⟨t, ht, h⟩
      exact ⟨t, ht, (move?_eq_press_iff (hdowns t ht).1.calm).1 h⟩
  rw [hpress]
  rcases hsettled with ⟨hlast, hdown⟩ | ⟨hlast, hup, hoff⟩
  · refine ⟨?_, fun h => absurd hlast h⟩
    rintro ⟨t, ht, h⟩
    rw [move?_eq_none_of_down hticks hdowns hdown t ht] at h
    cases h
  · exact ⟨fun _ => hlast, fun _ => exists_press_of_down hticks hdowns downLasts hup hoff⟩

/-- The ticks of one switch that is sampled at some times. -/
def sampledTicks (samples : List (Nat × Bool)) : List (Tick 1 1) :=
  (fresh 1 1 .usual).ticks bareRegistry
    (samples.map fun (now, down) => .tick now fun _ => down)

/-- Down until the chord is sent, then up and down again. -/
def pressedTwice : List (Tick 1 1) :=
  sampledTicks [(0, true), (10000, true), (40000, true), (50000, false), (60000, false),
    (61000, true), (71000, true)]

theorem press_of_pressedTwice :
    let ups := (pressedTwice.drop 3).take 2
    let downs := (pressedTwice.drop 3).drop 2
    lastMove? bareRegistry (0 : Fin 1) ups ≠ some .tap ∧
      ∃ t ∈ downs, t.before.switches.slots[(0 : Fin 1)].status = .notPressed ∧
        (t.sampled bareRegistry).slots[(0 : Fin 1)].status = .pressed := by
  intro ups downs
  have split : pressedTwice = pressedTwice.take 3 ++ (ups ++ (downs ++ [])) := by
    rw [List.append_nil, List.take_append_drop, List.take_append_drop]
  have calm : ∀ t ∈ pressedTwice.take 3 ++ (ups ++ downs), t.gaming bareRegistry = false := by
    decide +kernel
  have fixed : ∀ t ∈ pressedTwice.take 3 ++ (ups ++ downs),
      t.before.settings.debounce = 10000 := by decide +kernel
  have order : (pressedTwice.take 3 ++ (ups ++ downs)).Pairwise fun s t => s.now ≤ t.now := by
    decide +kernel
  have up : ∀ t ∈ ups, t.down 0 = false := by decide +kernel
  have down : ∀ t ∈ downs, t.down 0 = true := by decide +kernel
  have upLasts : Lasts 10000 ups := ⟨_, [], _, rfl, by decide +kernel⟩
  have downLasts : Lasts 10000 downs := ⟨_, [], _, rfl, by decide +kernel⟩
  have noTap : lastMove? bareRegistry (0 : Fin 1) ups ≠ some .tap := by decide +kernel
  exact ⟨noTap, (press_of_stable_iff split calm fixed order up upLasts down downLasts).2 noTap⟩

/-- Down for less than the chord delay, so that the release is a tap, and down again
before the tap has been released. -/
def tappedOnce : List (Tick 1 1) :=
  sampledTicks [(0, true), (10000, true), (12000, false), (22000, false), (23000, true),
    (33000, true)]

/-- A stable press that is missed: the two up samples and the two down samples are
each 10 ms apart, yet the slot stays where the tap has left it. -/
theorem tapped_press_missed :
    start bareRegistry 1 .usual = .ok (fresh 1 1 .usual) ∧
      ∃ front ups downs, tappedOnce = front ++ (ups ++ downs) ∧
        (∀ t ∈ tappedOnce, t.gaming bareRegistry = false ∧ t.before.settings = .usual) ∧
        tappedOnce.Pairwise (fun s t => s.now ≤ t.now) ∧
        (∀ t ∈ ups, t.down 0 = false) ∧ Lasts Settings.usual.debounce ups ∧
        (∀ t ∈ downs, t.down 0 = true) ∧ Lasts Settings.usual.debounce downs ∧
        ¬∃ t ∈ downs, t.before.switches.slots[(0 : Fin 1)].status = .notPressed ∧
          (t.sampled bareRegistry).slots[(0 : Fin 1)].status = .pressed := by
  refine ⟨rfl, tappedOnce.take 2, (tappedOnce.drop 2).take 2, (tappedOnce.drop 2).drop 2, ?_, ?_,
    ?_, ?_, ?_, ?_, ?_, ?_⟩
  · rw [List.take_append_drop, List.take_append_drop]
  · decide +kernel
  · decide +kernel
  · decide +kernel
  · exact ⟨_, [], _, rfl, by decide +kernel⟩
  · decide +kernel
  · exact ⟨_, [], _, rfl, by decide +kernel⟩
  · decide +kernel

end Engine

end Chordboard
