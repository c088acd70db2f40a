import Chordboard.Proofs.Engine.ChordDelivery

/-!
# Chords without a new press

The chord timer is started by presses and taps, and whatever was pressed stays so
until a chord takes it. So a chord has a switch that was newly pressed, and held
switches only join it. A gaming mode breaks this: it takes no notice of the chord
timer, yet once a switch moves there it leaves no slot pressed (`Swept`). Back in a
chorded mode, the timer that was left on assembles a chord of held switches alone.

`pressed_in_chord_iff` says that nothing else leads to such a chord, and that this
always does.
-/

namespace Chordboard

variable {B n : Nat} {reg : Registry B}

namespace Tick

/-- Some switch is not where its slot has it. -/
def Moved (t : Tick B n) : Prop :=
  ∃ i : Fin n, t.before.switches.slots[i].isDown ≠ t.down i

/-- A gaming mode has seen a switch move, and no press and no tap was accepted
since. -/
def Swept (reg : Registry B) (ts : List (Tick B n)) : Prop :=
  ∃ front g back, ts = front ++ g :: back ∧ g.gaming reg = true ∧ g.Moved ∧
    ∀ t ∈ back, t.Quiet reg

/-- Where a list that ends in `t` is cut: at `t`, or before it. -/
theorem concat_split_cases {ts front back : List (Tick B n)} {t g : Tick B n}
    (h : ts ++ [t] = front ++ g :: back) :
    (ts = front ∧ t = g ∧ back = []) ∨ ∃ rest, back = rest ++ [t] ∧ ts = front ++ g :: rest := by
  rcases List.eq_nil_or_concat back with rfl | ⟨rest, last, rfl⟩
  · obtain ⟨hts, ht⟩ := List.append_inj' h rfl
    exact Or.inl ⟨hts, List.singleton_inj.1 ht, rfl⟩
  · have hlong : ts ++ [t] = (front ++ g :: rest) ++ [last] := by simpa using h
    obtain ⟨hts, ht⟩ := List.append_inj' hlong rfl
    exact Or.inr ⟨rest, by rw [List.singleton_inj.1 ht, List.concat_eq_append], hts⟩

theorem swept_concat_iff {ts : List (Tick B n)} {t : Tick B n} :
    Swept reg (ts ++ [t]) ↔
      (t.gaming reg = true ∧ t.Moved) ∨ (Swept reg ts ∧ t.Quiet reg) := by
  constructor
  · rintro ⟨front, g, back, split, gaming, moved, quiet⟩
    rcases concat_split_cases split with ⟨-, rfl, -⟩ | ⟨rest, rfl, rfl⟩
    · exact Or.inl ⟨gaming, moved⟩
    · refine Or.inr ⟨⟨front, g, rest, rfl, gaming, moved, fun s hs => ?_⟩, ?_⟩
      · exact quiet s (List.mem_append_left _ hs)
      · exact quiet t (List.mem_append_right _ List.mem_cons_self)
  · rintro (⟨gaming, moved⟩ | ⟨⟨front, g, back, rfl, gaming, moved, quiet⟩, still⟩)
    · exact ⟨ts, t, [], rfl, gaming, moved, fun s hs => absurd hs List.not_mem_nil⟩
    · refine ⟨front, g, back ++ [t], ?_, gaming, moved, fun s hs => ?_⟩
      · rw [List.append_assoc, List.cons_append]
      · rcases List.mem_append.1 hs with hs | hs
        · exact quiet s hs
        · rw [List.mem_singleton.1 hs]
          exact still

variable {t : Tick B n}

/-! ## What is pressed after a tick in a gaming mode -/

/-- No press and no tap is ever accepted in a gaming mode. -/
theorem quiet_of_gaming (h : t.gaming reg = true) : t.Quiet reg := by
  intro m hm
  rw [moves, if_pos h] at hm
  cases hm

theorem gamingChanged_of_gaming (h : t.gaming reg = true)
    (asked : t.before.switches.gamingChanged = false) :
    (t.sampled reg).gamingChanged = true ↔ t.Moved := by
  rw [sampled_of_gaming h, Switches.updateGaming, asked]
  simp [Moved]

/-- In a gaming mode a move leaves nothing pressed, and without one nothing changes. -/
theorem pressed_after_of_gaming (h : t.gaming reg = true)
    (asked : t.before.switches.gamingChanged = false) (i : Fin n) :
    (t.after reg).switches.slots[i].status = .pressed ↔
      ¬t.Moved ∧ t.before.switches.slots[i].status = .pressed := by
  rw [← gamingChanged_of_gaming h asked]
  rcases gaming_cases h with ⟨hchanged, -, hafter⟩ | ⟨hchanged, -, hafter⟩
  · have agree := agree_of_unchanged h hchanged i
    have hsame : (t.sampled reg).slots[i].status = t.before.switches.slots[i].status := by
      rw [sampled_of_gaming h]
      simpa [Switches.updateGaming] using Slot.status_stepGaming_of_agree agree
    rw [hafter, hchanged, hsame]
    simp
  · have hmark : (t.after reg).switches.slots[i] = (t.sampled reg).slots[i].markSent := by
      rw [hafter]
      simp [Switches.markSent]
    rw [hmark, hchanged]
    simp [Slot.markSent_not_pressed]

/-- In a gaming mode the change of a tick is taken up by that tick, and in a chorded mode
there is none. -/
theorem gamingChanged_after (asked : t.before.switches.gamingChanged = false) :
    (t.after reg).switches.gamingChanged = false := by
  cases mode : t.gaming reg with
  | true =>
      rcases gaming_cases mode with ⟨hchanged, -, hafter⟩ | ⟨-, -, hafter⟩
      · rw [hafter]
        exact hchanged
      · rw [hafter]
  | false =>
      have hsampled : (t.sampled reg).gamingChanged = false := by
        rw [sampled_of_calm mode, Switches.gamingChanged_updateChorded]
        exact asked
      rcases switches_after mode with ⟨-, hafter⟩ | ⟨bits, s, hbits, hs, hafter⟩
      · rw [hafter]
        exact hsampled
      · have hsending : (t.sending reg).switches.gamingChanged = false := by
          rw [sending_of_calm mode (Option.isSome_iff_exists.2 ⟨bits, hbits⟩)]
          exact hsampled
        rw [hafter]
        rcases hs with rfl | ⟨c, rfl⟩ <;> exact hsending

end Tick

namespace Engine

open Tick

variable {e : Engine B n} {ts : List (Tick B n)} {t : Tick B n}

/-- What is known of an engine after the ticks `ts`. -/
structure ChordDue (reg : Registry B) (ts : List (Tick B n)) (e : Engine B n) : Prop where
  asked : e.switches.gamingChanged = false
  /-- While the chord timer is on, some switch is pressed unless all were swept away. -/
  pressed_iff : e.switches.grouping.chordTimer.isDisabled = false →
    ((∃ i : Fin n, e.switches.slots[i].status = .pressed) ↔ ¬Swept reg ts)

/-- The same once the sample of a chorded mode is taken. -/
theorem ChordDue.sampled_pressed_iff (h : ChordDue reg ts t.before) (calm : t.gaming reg = false)
    (on : (t.sampled reg).grouping.chordTimer.isDisabled = false) :
    (∃ i : Fin n, (t.sampled reg).slots[i].status = .pressed) ↔ ¬Swept reg (ts ++ [t]) := by
  rw [swept_concat_iff, calm]
  by_cases quiet : t.Quiet reg
  · -- Timer and pressed slots are as they were.
    rw [chordTimer_of_quiet calm quiet] at on
    have hsame (i : Fin n) : (t.sampled reg).slots[i].status = .pressed ↔
        t.before.switches.slots[i].status = .pressed := by
      rw [Tick.sampled_pressed_iff calm, presses_eq_nil_of_quiet quiet]
      simp
    rw [exists_congr hsame, h.pressed_iff on]
    simp [quiet]
  · refine iff_of_true (exists_sampled_pressed_of_not_quiet calm quiet) ?_
    simp [quiet]

theorem ChordDue.tick (h : ChordDue reg ts t.before) : ChordDue reg (ts ++ [t]) (t.after reg) where
  asked := gamingChanged_after h.asked
  pressed_iff on := by
    cases mode : t.gaming reg with
    | true =>
        rw [grouping_after_of_gaming mode] at on
        rw [exists_congr (pressed_after_of_gaming mode h.asked), exists_and_left,
          h.pressed_iff on, swept_concat_iff, mode]
        simp [quiet_of_gaming mode]
    | false =>
        rw [chordTimer_after mode] at on
        cases hchord : t.chord? reg with
        | some bits =>
            -- A chord takes the timer.
            rw [hchord] at on
            cases on
        | none =>
            rw [hchord] at on
            rw [← h.sampled_pressed_iff mode on]
            exact exists_congr fun i => (after_pressed_iff mode).trans (by simp [hchord])

theorem ChordDue.congr {e' : Engine B n} (h : ChordDue reg ts e)
    (asked : e'.switches.gamingChanged = e.switches.gamingChanged)
    (timer : e'.switches.grouping.chordTimer.isDisabled =
      e.switches.grouping.chordTimer.isDisabled)
    (status : ∀ i : Fin n, e'.switches.slots[i].status = e.switches.slots[i].status) :
    ChordDue reg ts e' where
  asked := asked.trans h.asked
  pressed_iff on := by
    simp only [status]
    exact h.pressed_iff (timer.symm.trans on)

theorem chordDue_step (h : ChordDue reg ts e) (i : Input n) :
    ChordDue reg (ts ++ (i.tick? e).toList) (e.step reg i).1 := by
  cases i with
  | tick now down => exact ChordDue.tick (t := ⟨e, now, down⟩) h
  | control m =>
      rw [Input.tick?, Option.toList_none, List.append_nil]
      have hswitches : (e.step reg (.control m)).1.switches = e.switches := (frame_control m).1
      refine h.congr ?_ ?_ fun i => ?_ <;> rw [hswitches]
  | apply settings =>
      rw [Input.tick?, Option.toList_none, List.append_nil]
      exact h.congr rfl rfl fun i => status_applySettings settings i

theorem chordDue_fresh (reg : Registry B) (n : Nat) (settings : Settings) :
    ChordDue reg [] (fresh B n settings) where
  asked := rfl
  pressed_iff on := by cases on

/-- **A chord has a new press, unless a gaming mode swept it away.** In any run, at any
times: a chord that is assembled has a switch that was pressed and not yet sent, exactly
unless a gaming mode has seen a switch move since the last press or tap was
accepted. -/
theorem pressed_in_chord_iff (hn : n ≤ 8 * B) {settings : Settings} {inputs : List (Input n)}
    {front back : List (Tick B n)} {t : Tick B n} {bits : Pattern B}
    (split : (fresh B n settings).ticks reg inputs = front ++ t :: back)
    (chord : t.chord? reg = some bits) :
    (∃ i : Fin n, bits.has i = true ∧ (t.sampled reg).slots[i].status = .pressed) ↔
      ¬Swept reg (front ++ [t]) := by
  have calm : t.gaming reg = false := (chord?_eq_some_iff.1 chord).1
  obtain ⟨earlier, -, -, hfront, hbefore, -⟩ := exists_inputs_of_ticks split
  have hdue : ChordDue reg front t.before := by
    rw [← hfront, ← hbefore]
    exact ticks_invariant (P := ChordDue reg) (fun ts e i h => chordDue_step h i)
      (chordDue_fresh reg n settings) earlier
  rw [← hdue.sampled_pressed_iff calm (chordTimer_on_of_chord chord)]
  refine exists_congr fun i => and_iff_right_of_imp fun hpressed => ?_
  exact (has_chord_iff hn chord i).2 (Or.inl hpressed)

/-- Switch 0 is a plain key, in a chorded mode and in a gaming mode. -/
def twoModes : Registry 1 where
  dictionaries := [⟨[[], [0x00, 1]], [[], [4]], .codes⟩]
  modes := [⟨⟨[0], [], [], []⟩, [Pattern.blank, Pattern.blank], Pattern.blank, [], false⟩,
    ⟨⟨[0], [], [], []⟩, [Pattern.blank, Pattern.blank], Pattern.blank, [], true⟩]
  plainMods := []
  wordMods := [0, 1]
  nospace := 0
  capital := 1
  double := none
  shorten := none
  modCount := 2

/-- Switch 0 is sent, and kept down until it is held. Switch 1 is pressed, but before its
chord is due it is released in the gaming mode. -/
def heldThroughGaming : List (Input 2) :=
  [.tick 0 (·.val == 0), .tick 10000 (·.val == 0), .tick 40000 (·.val == 0), .tick 310000 (·.val == 0),
    .tick 320000 fun _ => true, .tick 330000 fun _ => true, .control (.setMode 1),
    .tick 340000 (·.val == 0), .control (.setMode 0), .tick 360000 (·.val == 0)]

def heldThroughGamingTicks : List (Tick 1 2) :=
  (fresh 1 2 .usual).ticks twoModes heldThroughGaming

/-- One of the eight ticks of `heldThroughGaming`. -/
def heldThroughGamingTick (k : Fin 8) : Tick 1 2 :=
  heldThroughGamingTicks.get (k.cast (by decide +kernel))

/-- The first chord is sent for the press of switch 0. -/
theorem pressed_in_first_chord :
    ∃ i : Fin 2, (1 : Pattern 1).has i = true ∧
      ((heldThroughGamingTick 2).sampled twoModes).slots[i].status = .pressed := by
  have split : heldThroughGamingTicks =
      heldThroughGamingTicks.take 2 ++ heldThroughGamingTick 2 :: heldThroughGamingTicks.drop 3 :=
    rfl
  have chord : (heldThroughGamingTick 2).chord? twoModes = some (1 : Pattern 1) := by
    decide +kernel
  refine (pressed_in_chord_iff (by decide) split chord).2 ?_
  -- No gaming mode has been entered yet.
  rintro ⟨front, g, back, hsplit, gaming, -⟩
  have calm : ∀ t ∈ heldThroughGamingTicks.take 2 ++ [heldThroughGamingTick 2],
      t.gaming twoModes = false := by decide +kernel
  rw [calm g (hsplit ▸ List.mem_append_right _ List.mem_cons_self)] at gaming
  cases gaming

/-- The chord timer of switch 1 runs out in the chorded mode, where nothing is pressed any
more: a chord of switch 0 alone, which is only held, is assembled, and its key is typed
again. -/
theorem heldOnly_chord_sent :
    start twoModes 2 .usual = .ok (fresh 1 2 .usual) ∧
      (heldThroughGamingTicks.Pairwise fun s t => s.now ≤ t.now) ∧
      heldThroughGamingTick 7 ∈ heldThroughGamingTicks ∧
      ∃ bits, (heldThroughGamingTick 7).chord? twoModes = some bits ∧ bits.isBlank = false ∧
        (∀ i : Fin 2, ((heldThroughGamingTick 7).sampled twoModes).slots[i].status ≠ .pressed) ∧
        (heldThroughGamingTick 7).reports twoModes = [.event (.sequence [Key.plain 4] 0)] := by
  refine ⟨rfl, ?_, List.get_mem .., (1 : Pattern 1), ?_, ?_, ?_, ?_⟩
  · decide +kernel
  · decide +kernel
  · decide +kernel
  · decide +kernel
  · decide +kernel

end Engine

end Chordboard
