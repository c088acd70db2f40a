import Chordboard.Proofs.Engine.PendingPress
import Chordboard.Proofs.Engine.StickyHistory

/-!
# Gaming modes

In a gaming mode every switch stands for itself. The chord of a single switch is a modifier's,
or it is looked up as it is (`extractPlain_single`), so what a tick holds is the sum of what the
switches hold one by one (`Registry.gamingHold`): it can be told from the mode and the sample.

What an engine did before shows nowhere in it. Nothing is sticky in a gaming mode, and a change
that a tick saw was reported by that tick.
-/

namespace Chordboard

variable {B n : Nat} {reg : Registry B}

/-! ## The chord of one switch -/

/-- The chord of one switch alone. -/
def Chord.single (B mode i : Nat) : Chord B := (Chord.new B mode).insert i

namespace Registry

variable (reg : Registry B) (mode : Nat)

/-- The modifiers that a switch stands for. -/
def switchMods (i : Nat) : UInt8 := ((Chord.single B mode i).extractPlain reg).modByte reg

/-- The switch is the chord of a plain modifier. -/
def isModSwitch (i : Nat) : Bool := ((Chord.single B mode i).extractPlain reg).isEmpty

/-- The plain keys of a switch. -/
def switchKeys (i : Nat) : List Key := (reg.lookup .plain (Chord.single B mode i)).getD []

/-- What is held in a gaming mode while the switches `down` are down: the modifiers of each, and
the keys of those that are no modifiers, as many as there is room for. -/
def gamingHold (down : List Nat) : Event :=
  let keySwitches := down.filter fun i => !reg.isModSwitch mode i
  .hold ((keySwitches.flatMap (reg.switchKeys mode)).take maxKeys)
    ((down.map (reg.switchMods mode)).foldl (· ||| ·) 0)

end Registry

namespace Chord

/-- One switch offers no pattern but its own. -/
theorem eq_of_offers_single {c : Chord B} {p : Pattern B} {i : Nat}
    (single : c.bits = Pattern.blank.insert i) (offered : c.offers p = true) : p = c.bits := by
  obtain ⟨⟨k, hk⟩, within⟩ := offers_iff.1 offered
  have honly : ∀ j, c.bits.has j = true → i = j := by
    intro j hj
    rw [single] at hj
    have hboth : i < 8 * B ∧ i = j := by simpa using hj
    exact hboth.2
  refine Pattern.ext_has fun j _ => ?_
  by_cases hj : c.bits.has j = true
  · -- The switch that `p` has is this one.
    have hkj : k = j := (honly k (within k hk)).symm.trans (honly j hj)
    rw [hj, ← hkj, hk]
  · have hpj : ¬p.has j = true := mt (within j) hj
    rw [Bool.not_eq_true] at hj hpj
    rw [hj, hpj]

theorem extract_of_isEmpty {c : Chord B} (empty : c.isEmpty = true) (p : Pattern B) (id : Nat) :
    c.extract p id = c := by
  refine if_neg ?_
  intro offered
  obtain ⟨⟨k, hk⟩, within⟩ := offers_iff.1 offered
  have hbits := within k hk
  rw [Pattern.isBlank_iff_has.1 empty k] at hbits
  cases hbits

/-- A modifier takes a single switch as a whole, or leaves it. -/
theorem extract_single {c : Chord B} {i : Nat} (single : c.bits = Pattern.blank.insert i)
    (p : Pattern B) (id : Nat) : (c.extract p id).isEmpty = true ∨ c.extract p id = c := by
  by_cases offered : c.offers p = true
  · refine Or.inl ?_
    rw [extract, if_pos offered, eq_of_offers_single single offered]
    show (c.bits.diff c.bits).isBlank = true
    rw [Pattern.isBlank_iff_has]
    intro j
    simp
  · exact Or.inr (if_neg offered)

/-- The first modifier that is offered takes the switch, and the rest find nothing. -/
theorem extractPlain_single (reg : Registry B) (mode i : Nat) :
    ((single B mode i).extractPlain reg).isEmpty = true ∨
      (single B mode i).extractPlain reg = single B mode i := by
  refine extractPlain_keeps (P := fun c => c.isEmpty = true ∨ c = single B mode i) ?_ reg
    (Or.inr rfl)
  rintro c p id (hempty | rfl)
  · rw [extract_of_isEmpty hempty]
    exact Or.inl hempty
  · exact extract_single rfl p id

end Chord

/-! ## What the switches hold together -/

theorem addKey_take (ks : List Key) (k : Key) :
    addKey (ks.take maxKeys) k = (ks ++ [k]).take maxKeys := by
  by_cases room : ks.length < maxKeys
  · rw [List.take_of_length_le (Nat.le_of_lt room), addKey_of_lt k room,
      List.take_of_length_le (by rw [List.length_append]; exact room)]
  · have hfull : maxKeys ≤ ks.length := Nat.not_lt.1 room
    rw [addKey_of_le k (by simp [hfull]), List.take_append_of_le_length hfull]

theorem foldl_addKey_take (ks keys : List Key) :
    keys.foldl addKey (ks.take maxKeys) = (ks ++ keys).take maxKeys := by
  induction keys generalizing ks with
  | nil => rw [List.append_nil]; rfl
  | cons k keys ih =>
      rw [List.foldl_cons, addKey_take, ih, List.append_assoc]
      rfl

namespace Engine

theorem gather_single (ks : List Key) (mods : UInt8) (mode i : Nat) :
    gather reg (ks.take maxKeys, mods) (Chord.single B mode i) =
      ((ks ++ if reg.isModSwitch mode i then [] else reg.switchKeys mode i).take maxKeys,
        mods ||| reg.switchMods mode i) := by
  show (if reg.isModSwitch mode i then (ks.take maxKeys, mods ||| reg.switchMods mode i) else
    (((reg.lookup .plain ((Chord.single B mode i).extractPlain reg)).getD []).foldl addKey
      (ks.take maxKeys), mods ||| reg.switchMods mode i)) = _
  by_cases taken : reg.isModSwitch mode i = true
  · rw [if_pos taken, if_pos taken, List.append_nil]
  · have hwhole : (Chord.single B mode i).extractPlain reg = Chord.single B mode i :=
      (Chord.extractPlain_single reg mode i).resolve_left taken
    rw [if_neg taken, if_neg taken, hwhole, foldl_addKey_take]
    rfl

theorem foldl_gather_single (ks : List Key) (mods : UInt8) (mode : Nat) (down : List Nat) :
    (down.map (Chord.single B mode)).foldl (gather reg) (ks.take maxKeys, mods) =
      ((ks ++ (down.filter fun i => !reg.isModSwitch mode i).flatMap
          (reg.switchKeys mode)).take maxKeys,
        (down.map (reg.switchMods mode)).foldl (· ||| ·) mods) := by
  induction down generalizing ks mods with
  | nil => rw [List.filter_nil, List.flatMap_nil, List.append_nil]; rfl
  | cons i down ih =>
      rw [List.map_cons, List.foldl_cons, gather_single, ih, List.append_assoc, List.filter_cons]
      cases reg.isModSwitch mode i <;> rfl

end Engine

/-! ## One tick -/

/-- The switches that a sample says are down, in order. -/
def downIn (sample : Fin n → Bool) : List Nat :=
  ((List.finRange n).filter sample).map Fin.val

namespace Tick

variable {t : Tick B n}

theorem downSwitches_of_gaming (h : t.gaming reg = true) :
    (t.sampled reg).downSwitches = downIn t.down := by
  have hdown (i : Fin n) : (t.sampled reg).slots[i].isDown = t.down i := by
    rw [sampled_of_gaming h]
    simp [Switches.updateGaming]
  unfold Switches.downSwitches downIn
  rw [funext hdown]

theorem gathered_of_gaming (h : t.gaming reg = true) (unstuck : t.before.sticky = 0) :
    Event.hold (t.gathered reg).1 (t.gathered reg).2 =
      reg.gamingHold t.before.mode (downIn t.down) := by
  have hgathered : t.gathered reg = ((downIn t.down).map (Chord.single B t.before.mode)).foldl
      (Engine.gather reg) (([] : List Key).take maxKeys, 0) := by
    rw [← downSwitches_of_gaming h, ← unstuck]
    rfl
  rw [hgathered, Engine.foldl_gather_single, List.nil_append]
  rfl

theorem moved_iff_of_gaming (h : t.gaming reg = true) :
    t.Moved ↔ ∃ i : Fin n,
      t.before.switches.slots[i].isDown ≠ (t.after reg).switches.slots[i].isDown := by
  refine exists_congr fun i => ?_
  rw [(slot_after_of_gaming h i).2]

theorem reports_of_gaming (h : t.gaming reg = true)
    (asked : t.before.switches.gamingChanged = false) (unstuck : t.before.sticky = 0) :
    (¬t.Moved → t.reports reg = []) ∧
      (t.Moved → t.reports reg = [.event (reg.gamingHold t.before.mode (downIn t.down))]) := by
  rw [← gamingChanged_of_gaming h asked]
  rcases gaming_cases h with ⟨hchanged, hreports, -⟩ | ⟨hchanged, hreports, -⟩
  · exact ⟨fun _ => hreports, fun moved => nomatch hchanged.symm.trans moved⟩
  · refine ⟨fun still => absurd hchanged still, fun _ => ?_⟩
    rw [hreports, gathered_of_gaming h unstuck]

end Tick

namespace Engine

/-- **A gaming mode has no memory.** Take a tick in a gaming mode, in any state that an engine
reaches. After it each slot is down exactly where its sample is. It reports nothing if that
moved no slot up or down, and otherwise a single hold, which the mode and the sample alone
determine. -/
theorem gaming_memoryless {settings : Settings} {inputs : List (Input n)} {t : Tick B n}
    (reached : ((fresh B n settings).run reg inputs).1 = t.before)
    (gaming : t.gaming reg = true) :
    (∀ i : Fin n, (t.after reg).switches.slots[i].isDown = t.down i) ∧
      ((∀ i : Fin n, (t.after reg).switches.slots[i].isDown =
          t.before.switches.slots[i].isDown) → t.reports reg = []) ∧
      ((∃ i : Fin n, (t.after reg).switches.slots[i].isDown ≠
          t.before.switches.slots[i].isDown) →
        t.reports reg = [.event (reg.gamingHold t.before.mode (downIn t.down))]) := by
  have hasked : t.before.switches.gamingChanged = false := by
    rw [← reached]
    exact (pressTimed_run reg settings inputs).asked
  have hunstuck : t.before.sticky = 0 := by
    have hmode : ((fresh B n settings).run reg inputs).1.isGaming reg = true := by
      rw [reached]
      exact gaming
    rw [← reached]
    exact sticky_eq_zero_of_gaming reg settings inputs hmode
  obtain ⟨hstill, hmoved⟩ := Tick.reports_of_gaming gaming hasked hunstuck
  refine ⟨fun i => (Tick.slot_after_of_gaming gaming i).2, ?_, ?_⟩
  · intro same
    apply hstill
    rw [Tick.moved_iff_of_gaming gaming]
    rintro ⟨i, hi⟩
    exact hi (same i).symm
  · rintro ⟨i, hi⟩
    exact hmoved ((Tick.moved_iff_of_gaming gaming).2 ⟨i, hi.symm⟩)

/-- The first tick in the gaming mode that `enteredGaming` has gone to. Switch 1 is up. -/
def gamingTick : Tick 1 2 := ⟨enteredGaming, 340000, (·.val == 0)⟩

/-- The gaming mode is entered while switch 0 is held after a chord and switch 1 is pressed, with
its chord still to come. What is held then is the key of switch 0. -/
theorem gaming_memoryless_after_chords :
    start twoModes 2 .usual = .ok (fresh 1 2 .usual) ∧ gamingTick.gaming twoModes = true ∧
      enteredGaming.switches.grouping.chordTimer.isDisabled = false ∧
      enteredGaming.switches.slots[(0 : Fin 2)].status = .held ∧
      enteredGaming.switches.slots[(1 : Fin 2)].status = .pressed ∧
      gamingTick.reports twoModes = [.event (.hold [Key.plain 4] 0)] := by
  have hgaming : gamingTick.gaming twoModes = true := by decide +kernel
  have hmoved : ∃ i : Fin 2, (gamingTick.after twoModes).switches.slots[i].isDown ≠
      enteredGaming.switches.slots[i].isDown := ⟨1, by decide +kernel⟩
  have hhold : twoModes.gamingHold gamingTick.before.mode (downIn gamingTick.down) =
      .hold [Key.plain 4] 0 := by decide +kernel
  obtain ⟨-, -, hreports⟩ := gaming_memoryless (t := gamingTick) rfl hgaming
  refine ⟨rfl, hgaming, by decide +kernel, by decide +kernel, by decide +kernel, ?_⟩
  rw [← hhold]
  exact hreports hmoved

end Engine

end Chordboard
