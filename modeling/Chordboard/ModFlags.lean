/-!
# Modifier flags

A chord remembers which modifiers were taken out of it: a set of modifier
numbers below `maxModifiers`. Beside the set stands one mark, which says
that it has been settled what a capital letter means for this chord. The
mark is no modifier, so it does not count when the set is asked whether it
is empty.

A number that is too large is in no set, and putting it in, taking it out
or turning it changes nothing.
-/

namespace Chordboard

/-- The number of modifiers a chord can carry. -/
def maxModifiers : Nat := 15

/-- A set of modifier numbers, and the mark of a settled capital. -/
structure ModFlags where
  ids : BitVec maxModifiers
  capitalSettled : Bool
deriving DecidableEq, Repr

namespace ModFlags

def empty : ModFlags := ⟨BitVec.zero maxModifiers, false⟩

def has (f : ModFlags) (id : Nat) : Bool := f.ids.getLsbD id

def set (f : ModFlags) (id : Nat) : ModFlags :=
  { f with ids := f.ids ||| BitVec.twoPow maxModifiers id }

def unset (f : ModFlags) (id : Nat) : ModFlags :=
  { f with ids := f.ids &&& ~~~BitVec.twoPow maxModifiers id }

/-- Takes modifier `id` out if it is in, else puts it in. -/
def toggle (f : ModFlags) (id : Nat) : ModFlags :=
  { f with ids := f.ids ^^^ BitVec.twoPow maxModifiers id }

def settleCapital (f : ModFlags) : ModFlags :=
  { f with capitalSettled := true }

def isEmpty (f : ModFlags) : Bool := f.ids == BitVec.zero maxModifiers

theorem ext_has {f g : ModFlags} (h : ∀ id < maxModifiers, f.has id = g.has id)
    (hc : f.capitalSettled = g.capitalSettled) : f = g := by
  cases f
  cases g
  cases hc
  exact congrArg (ModFlags.mk · _) (BitVec.eq_of_getLsbD_eq h)

@[simp] theorem has_empty (id : Nat) : empty.has id = false := by
  simp [empty, has]

theorem has_of_le {f : ModFlags} {id : Nat} (h : maxModifiers ≤ id) : f.has id = false :=
  BitVec.getLsbD_of_ge _ _ h

@[simp] theorem has_set (f : ModFlags) (a b : Nat) :
    (f.set a).has b = (f.has b || (decide (a < maxModifiers) && decide (a = b))) := by
  simp [set, has]

@[simp] theorem has_unset (f : ModFlags) (a b : Nat) :
    (f.unset a).has b = (f.has b && !decide (a = b)) := by
  by_cases hb : b < maxModifiers
  · by_cases hab : a = b
    · simp [unset, has, hab, hb]
    · simp [unset, has, hab, hb, Ne.symm hab]
  · simp [has_of_le (Nat.le_of_not_lt hb)]

@[simp] theorem has_toggle (f : ModFlags) (a b : Nat) :
    (f.toggle a).has b = (f.has b ^^ (decide (a < maxModifiers) && decide (a = b))) := by
  simp [toggle, has]

@[simp] theorem has_settleCapital (f : ModFlags) (id : Nat) :
    f.settleCapital.has id = f.has id := rfl

@[simp] theorem capitalSettled_set (f : ModFlags) (id : Nat) :
    (f.set id).capitalSettled = f.capitalSettled := rfl

@[simp] theorem capitalSettled_unset (f : ModFlags) (id : Nat) :
    (f.unset id).capitalSettled = f.capitalSettled := rfl

@[simp] theorem capitalSettled_toggle (f : ModFlags) (id : Nat) :
    (f.toggle id).capitalSettled = f.capitalSettled := rfl

/-- Turning a modifier twice changes nothing. -/
@[simp] theorem toggle_toggle (f : ModFlags) (id : Nat) : (f.toggle id).toggle id = f :=
  ext_has (fun b _ => by simp) rfl

end ModFlags

end Chordboard
