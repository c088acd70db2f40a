import Chordboard.Chord.Spelling

/-!
# Capital letters

A capital changes the first key of a word. What it does to that key is settled by the key itself,
and none of the other edits touches the first key as long as there is one. So it makes no
difference whether a capital is settled from the keys of the dictionary or from the keys that are
sent (`head?_spell`), and turning a capital on and off again leads back to what was sent before
(`spell_settleCapital`).
-/

namespace Chordboard

/-- Modifiers can be turned in any order. -/
theorem ModFlags.toggle_comm (f : ModFlags) (a b : Nat) :
    (f.toggle a).toggle b = (f.toggle b).toggle a := by
  refine ModFlags.ext_has (fun id _ => ?_) rfl
  simp only [has_toggle]
  exact Bool.xor_right_comm ..

theorem ModFlags.settleCapital_toggle (f : ModFlags) (id : Nat) :
    (f.toggle id).settleCapital = f.settleCapital.toggle id := rfl

namespace CapitalRule

theorem apply_nil (rule : CapitalRule) : rule.apply [] = [] := by
  cases rule <;> rfl

/-! ## The first key -/

/-- What a capital does to the first key. -/
def change : CapitalRule → Key → Key
  | .raise, k => { k with mods := k.mods ||| Modifier.leftShift }
  | .lower, k => { k with mods := k.mods &&& ~~~Modifier.shift }
  | .keep, k => k

@[simp] theorem code_change (rule : CapitalRule) (k : Key) : (rule.change k).code = k.code := by
  cases rule <;> rfl

theorem head?_apply (rule : CapitalRule) (keys : List Key) :
    (rule.apply keys).head? = keys.head?.map rule.change := by
  cases rule <;> cases keys <;> rfl

/-- The rule is settled by the first key alone. -/
theorem ofKeys_congr {keys keys' : List Key} (h : keys.head? = keys'.head?) :
    ofKeys keys = ofKeys keys' := by
  cases keys with
  | nil =>
      rw [List.head?_eq_none_iff.1 h.symm]
  | cons first rest =>
      obtain ⟨rest', rfl⟩ := List.head?_eq_some_iff.1 h.symm
      rfl

/-- Capitals leave alone exactly the words that begin with no letter. -/
theorem ofKeys_eq_keep_iff {first : Key} {keys : List Key} (h : keys.head? = some first) :
    ofKeys keys = .keep ↔ KeyCode.isLetter first.code = false := by
  obtain ⟨rest, rfl⟩ := List.head?_eq_some_iff.1 h
  rw [ofKeys]
  cases KeyCode.isLetter first.code with
  | true => cases Modifier.isShifted first.mods <;> decide
  | false => simp

end CapitalRule

namespace Chord

variable {B : Nat} {reg : Registry B} {c : Chord B} {keys : List Key}

/-! ## Edits and the first key -/

theorem head?_addKey (k : Key) (some : keys ≠ []) : (addKey keys k).head? = keys.head? := by
  unfold addKey
  split
  · obtain ⟨first, rest, rfl⟩ := List.exists_cons_of_ne_nil some
    rfl
  · rfl

theorem head?_repeatLast (keys : List Key) : (repeatLast keys).head? = keys.head? := by
  unfold repeatLast
  split
  · rename_i last hlast
    exact head?_addKey last (List.ne_nil_of_mem (List.mem_of_getLast? hlast))
  · rfl

/-- As long as a key is left, the first one is that of the dictionary. -/
theorem head?_editLength (some : c.editLength reg keys ≠ []) :
    (c.editLength reg keys).head? = keys.head? := by
  have hshort : ∀ keys' : List Key, (if c.hasDouble reg then repeatLast keys' else keys').head? =
      keys'.head? := by
    intro keys'
    split
    · exact head?_repeatLast keys'
    · rfl
  have hhead := hshort (if c.hasShorten reg then keys.dropLast else keys)
  have hsome : (if c.hasShorten reg then keys.dropLast else keys) ≠ [] := by
    intro hnil
    rw [hnil, List.head?_nil] at hhead
    unfold editLength at some
    rw [hnil] at some
    exact some (List.head?_eq_none_iff.1 hhead)
  unfold editLength
  dsimp only
  rw [hhead]
  split at hsome
  · rename_i hshorten
    rw [if_pos hshorten, List.head?_dropLast, if_pos]
    have hlength := List.length_pos_iff.2 hsome
    rw [List.length_dropLast] at hlength
    omega
  · rename_i hlong
    rw [if_neg hlong]

theorem ruleFor_congr {keys' : List Key} (h : keys.head? = keys'.head?) :
    c.ruleFor keys = c.ruleFor keys' := by
  rw [ruleFor, ruleFor, CapitalRule.ofKeys_congr h]

/-- **The first key that is sent.** If the edits leave a key, the first one to be sent is the first
one of the dictionary, changed as the chord's capital says. -/
theorem head?_spell (some : c.editLength reg keys ≠ []) :
    (c.spell reg keys).head? =
      keys.head?.map fun first =>
        if c.hasCapital reg then (c.ruleFor keys).change first else first := by
  have hhead := head?_editLength some
  have hcapital : (c.editCapital reg (c.editLength reg keys)).head? =
      keys.head?.map fun first =>
        if c.hasCapital reg then (c.ruleFor keys).change first else first := by
    rw [editCapital]
    split
    · rw [CapitalRule.head?_apply, hhead, ruleFor_congr hhead]
    · rw [hhead, Option.map_id']
  have hsome : c.editCapital reg (c.editLength reg keys) ≠ [] := by
    rw [← List.length_pos_iff, length_editCapital]
    exact List.length_pos_iff.2 some
  rw [← hcapital]
  unfold spell
  dsimp only
  split
  · rfl
  · exact head?_addKey _ hsome

/-! ## Turning capitals and spaces on and off -/

theorem cycleNospace_cycleNospace (c : Chord B) : (c.cycleNospace reg).cycleNospace reg = c := by
  rw [cycleNospace, cycleNospace, ModFlags.toggle_toggle]

theorem settleCapital_of_settled (settled : c.mods.capitalSettled = true) (keys : List Key) :
    c.settleCapital keys = c := if_pos settled

theorem capitalSettled_settleCapital (c : Chord B) (keys : List Key) :
    (c.settleCapital keys).mods.capitalSettled = true := by
  unfold settleCapital
  split
  · assumption
  · rfl

/-- Turned twice, a capital is as it was, but its meaning is settled now. -/
theorem cycleCapital_cycleCapital (c : Chord B) (keys keys' : List Key) :
    (c.cycleCapital reg keys).cycleCapital reg keys' = c.settleCapital keys := by
  have hsettled : (c.cycleCapital reg keys).mods.capitalSettled = true :=
    capitalSettled_settleCapital c keys
  rw [cycleCapital, settleCapital_of_settled hsettled, cycleCapital]
  dsimp only
  rw [ModFlags.toggle_toggle]

theorem cycleNospace_cycleCapital (c : Chord B) (keys : List Key) :
    (c.cycleCapital reg keys).cycleNospace reg = (c.cycleNospace reg).cycleCapital reg keys := by
  unfold cycleCapital settleCapital cycleNospace
  cases h : c.mods.capitalSettled with
  | true => simp [h, ModFlags.toggle_comm]
  | false => simp [h, ModFlags.toggle_comm, ModFlags.settleCapital_toggle]

/-- A capital that is settled now means what it has meant for the keys of the dictionary. -/
theorem ruleFor_settleCapital (c : Chord B) (keys keys' : List Key) :
    (c.settleCapital keys).ruleFor keys' = c.ruleFor keys := by
  unfold settleCapital ruleFor
  cases h : c.mods.capitalSettled with
  | true => simp [h]
  | false => simp [ModFlags.settleCapital]

/-- To settle a capital changes none of the modifiers. -/
theorem has_settleCapital (c : Chord B) (keys : List Key) (id : Nat) :
    (c.settleCapital keys).mods.has id = c.mods.has id := by
  unfold settleCapital
  split <;> rfl

theorem editLength_settleCapital (c : Chord B) (keys keys' : List Key) :
    (c.settleCapital keys).editLength reg keys' = c.editLength reg keys' := by
  unfold settleCapital
  split <;> rfl

/-- **A settled capital.** What is sent for a word stays the same when its capital is settled from
the keys of the dictionary. -/
theorem spell_settleCapital (c : Chord B) (keys : List Key) :
    (c.settleCapital keys).spell reg keys = c.spell reg keys := by
  have hcapital : (c.settleCapital keys).editCapital reg (c.editLength reg keys) =
      c.editCapital reg (c.editLength reg keys) := by
    rw [editCapital, editCapital, hasCapital, hasCapital, has_settleCapital,
      ruleFor_settleCapital]
    by_cases none : c.editLength reg keys = []
    · -- No rule changes an empty word.
      rw [none, CapitalRule.apply_nil, CapitalRule.apply_nil]
    · rw [ruleFor_congr (head?_editLength none)]
  unfold spell
  rw [editLength_settleCapital, hcapital, hasNospace, hasNospace, has_settleCapital]

theorem modByte_settleCapital (c : Chord B) (keys : List Key) :
    (c.settleCapital keys).modByte reg = c.modByte reg := by
  simp only [modByte, has_settleCapital]

end Chord

end Chordboard
