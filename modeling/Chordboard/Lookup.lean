import Chordboard.Chord

/-!
# Looking up a chord

A chord is looked up in the dictionaries of its mode, in the order that the
mode gives for the kind of entry wanted. The first dictionary that finds
keys answers; one that is not in the registry is passed over.
-/

namespace Chordboard

variable {B : Nat}

namespace Registry

/-- The keys of a chord as an entry of some kind. -/
def lookup (reg : Registry B) (kind : EntryKind) (c : Chord B) : Option (List Key) :=
  match reg.mode? c.mode with
  | none => none
  | some mode =>
      (mode.order.ids kind).findSome? fun id =>
        match reg.dictionary? id with
        | some d => d.find? c.bits c.anagram
        | none => none

theorem length_of_lookup {reg : Registry B} {kind : EntryKind} {c : Chord B} {keys : List Key}
    (h : reg.lookup kind c = some keys) : keys ≠ [] ∧ keys.length ≤ maxKeys := by
  unfold lookup at h
  split at h
  · cases h
  · obtain ⟨id, _, hid⟩ := List.exists_of_findSome?_eq_some h
    split at hid
    · exact Dictionary.length_of_find? hid
    · cases hid

end Registry

end Chordboard
