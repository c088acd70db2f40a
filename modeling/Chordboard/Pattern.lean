/-!
# Patterns of switches

A pattern is a set of switches, kept as one bit for each switch. A keyboard
whose chords are `B` bytes wide has room for `8 * B` switches, and a switch
beyond them is never in a pattern.

On the wire a pattern is `B` bytes, the switches counted from the lowest
bit of the first byte: switch `i` is bit `i % 8` of byte `i / 8`
(`has_ofBytes`, `getLsbD_byte`). Reading and writing are inverse to
each other on lists of exactly `B` bytes (`toBytes_ofBytes`,
`ofBytes_toBytes`).
-/

namespace Chordboard

/-- A set of switches for chords of `B` bytes. -/
abbrev Pattern (B : Nat) : Type := BitVec (8 * B)

namespace Pattern

variable {B : Nat}

/-! ## Sets -/

def blank : Pattern B := BitVec.zero (8 * B)

def isBlank (p : Pattern B) : Bool := p == blank

def has (p : Pattern B) (i : Nat) : Bool := p.getLsbD i

/-- Adds switch `i`, if there is room for such a switch. -/
def insert (p : Pattern B) (i : Nat) : Pattern B :=
  if i < 8 * B then p ||| BitVec.twoPow (8 * B) i else p

/-- The switches of a list. -/
def ofSwitches (is : List Nat) : Pattern B := is.foldl insert blank

def union (p q : Pattern B) : Pattern B := p ||| q

def inter (p q : Pattern B) : Pattern B := p &&& q

def diff (p q : Pattern B) : Pattern B := p &&& ~~~q

def contains (p q : Pattern B) : Bool := p.inter q == q

theorem ext_has {p q : Pattern B} (h : ∀ i < 8 * B, p.has i = q.has i) : p = q :=
  BitVec.eq_of_getLsbD_eq h

@[simp] theorem has_blank (i : Nat) : (blank : Pattern B).has i = false := by
  simp [blank, has]

theorem has_of_le {p : Pattern B} {i : Nat} (h : 8 * B ≤ i) : p.has i = false :=
  BitVec.getLsbD_of_ge p i h

@[simp] theorem has_insert (p : Pattern B) (i j : Nat) :
    (p.insert i).has j = (p.has j || (decide (i < 8 * B) && decide (i = j))) := by
  unfold insert
  split
  · simp [has]
  · rename_i h
    simp [h]

@[simp] theorem has_union (p q : Pattern B) (i : Nat) :
    (p.union q).has i = (p.has i || q.has i) := by
  simp [union, has]

@[simp] theorem has_inter (p q : Pattern B) (i : Nat) :
    (p.inter q).has i = (p.has i && q.has i) := by
  simp [inter, has]

@[simp] theorem has_diff (p q : Pattern B) (i : Nat) :
    (p.diff q).has i = (p.has i && !q.has i) := by
  by_cases h : i < 8 * B
  · simp [diff, has, h]
  · simp [has_of_le (Nat.le_of_not_lt h)]

theorem has_ofSwitches (is : List Nat) (j : Nat) :
    (ofSwitches is : Pattern B).has j = (decide (j < 8 * B) && decide (j ∈ is)) := by
  suffices h : ∀ p : Pattern B,
      (is.foldl insert p).has j = (p.has j || (decide (j < 8 * B) && decide (j ∈ is))) by
    simp [ofSwitches, h]
  induction is with
  | nil => simp
  | cons i is ih =>
      intro p
      rw [List.foldl_cons, ih, has_insert]
      grind

theorem isBlank_iff {p : Pattern B} : p.isBlank = true ↔ p = blank := by
  simp [isBlank]

theorem isBlank_iff_has {p : Pattern B} : p.isBlank = true ↔ ∀ i, p.has i = false := by
  rw [isBlank_iff]
  exact ⟨fun h i => h ▸ has_blank i, fun h => ext_has fun i _ => by rw [h i, has_blank]⟩

theorem contains_iff {p q : Pattern B} :
    p.contains q = true ↔ ∀ i, q.has i = true → p.has i = true := by
  rw [contains, beq_iff_eq]
  constructor
  · intro h i hi
    have := congrArg (fun r : Pattern B => r.has i) h
    simp only [has_inter, hi, Bool.and_true] at this
    exact this
  · intro h
    refine ext_has fun i _ => ?_
    rw [has_inter]
    have := h i
    cases hq : q.has i <;> simp_all

/-! ## Bytes -/

/-- The number that a list of bytes writes, lowest byte first. -/
def bytesToNat : List UInt8 → Nat
  | [] => 0
  | b :: bs => b.toNat + 256 * bytesToNat bs

/-- Reads `B` bytes; bytes that are missing count as zero, and further ones are
not looked at. -/
def ofBytes (B : Nat) (bytes : List UInt8) : Pattern B :=
  BitVec.ofNat (8 * B) (bytesToNat bytes)

def byte (p : Pattern B) (k : Nat) : UInt8 :=
  UInt8.ofBitVec (p.extractLsb' (8 * k) 8)

/-- Writes the `B` bytes of a pattern. -/
def toBytes (p : Pattern B) : List UInt8 :=
  (List.range B).map p.byte

@[simp] theorem length_toBytes (p : Pattern B) : p.toBytes.length = B := by
  simp [toBytes]

theorem testBit_bytesToNat (bytes : List UInt8) (i : Nat) :
    (bytesToNat bytes).testBit i = (bytes.getD (i / 8) 0).toNat.testBit (i % 8) := by
  induction bytes generalizing i with
  | nil => simp [bytesToNat]
  | cons b bs ih =>
      have hb : b.toNat < 2 ^ 8 := b.toNat_lt
      rw [bytesToNat, Nat.add_comm, show (256 : Nat) = 2 ^ 8 from rfl,
        Nat.testBit_two_pow_mul_add _ hb]
      split
      · rename_i hi
        rw [Nat.div_eq_of_lt hi, Nat.mod_eq_of_lt hi]
        rfl
      · rename_i hi
        obtain ⟨j, rfl⟩ : ∃ j, i = j + 8 := ⟨i - 8, by omega⟩
        rw [Nat.add_sub_cancel, ih, Nat.add_div_right j (by decide), Nat.add_mod_right]
        rfl

/-- Switch `i` is bit `i % 8` of byte `i / 8`. -/
theorem has_ofBytes {bytes : List UInt8} {i : Nat} (h : i < 8 * B) :
    (ofBytes B bytes).has i = (bytes.getD (i / 8) 0).toBitVec.getLsbD (i % 8) := by
  rw [ofBytes, has, BitVec.getLsbD_ofNat, testBit_bytesToNat, decide_eq_true h, Bool.true_and]
  rfl

theorem getLsbD_byte (p : Pattern B) (k j : Nat) :
    (p.byte k).toBitVec.getLsbD j = (decide (j < 8) && p.has (8 * k + j)) := by
  simp [byte, has]

/-- Bytes that have been read are written again. -/
theorem toBytes_ofBytes {bytes : List UInt8} (h : bytes.length = B) :
    (ofBytes B bytes).toBytes = bytes := by
  refine List.ext_getElem (by simp [h]) fun k hk hk' => ?_
  simp only [toBytes, List.getElem_map, List.getElem_range]
  apply UInt8.toBitVec_inj.1
  refine BitVec.eq_of_getLsbD_eq fun j hj => ?_
  have hi : 8 * k + j < 8 * B := by omega
  rw [getLsbD_byte, has_ofBytes hi, show (8 * k + j) / 8 = k by omega,
    show (8 * k + j) % 8 = j by omega]
  simp [hj, List.getD_eq_getElem?_getD, hk']

/-- A pattern that has been written is read again. -/
@[simp] theorem ofBytes_toBytes (p : Pattern B) : ofBytes B p.toBytes = p := by
  refine ext_has fun i hi => ?_
  have hk : i / 8 < B := by omega
  rw [has_ofBytes hi, List.getD_eq_getElem?_getD, toBytes, List.getElem?_map,
    List.getElem?_range hk, Option.map_some, Option.getD_some, getLsbD_byte]
  have : i % 8 < 8 := Nat.mod_lt _ (by decide)
  simp [this, Nat.div_add_mod]

theorem toBytes_inj {p q : Pattern B} : p.toBytes = q.toBytes ↔ p = q :=
  ⟨fun h => by rw [← ofBytes_toBytes p, h, ofBytes_toBytes], fun h => h ▸ rfl⟩

end Pattern

end Chordboard
