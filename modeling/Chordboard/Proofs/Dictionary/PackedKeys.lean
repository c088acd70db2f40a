import Chordboard.Packing
import Mathlib.Tactic.IntervalCases

/-!
# Unpacking what was packed

Reading a packed text goes key by key, from whichever key a sequence starts
with, so the first key read may stand in any of the four places of a group.
`unpackKey?_pack` is the fact for one key: at its start byte, the key comes
out as its low six bits, and the bytes reported as used lead to the start
byte of the next key. `unpackKeys?_pack` chains it over a sequence.

Both hold with any bytes after the packed text, since an unpacked key never
looks past the bytes of its own group.
-/

namespace Chordboard

namespace Packing

/-! ## The four places of a group -/

theorem unpack_first (a b : UInt8) :
    ((a &&& keyMask) <<< 2 ||| (b &&& keyMask) >>> 4) >>> 2 = a &&& keyMask := by
  apply UInt8.toBitVec_inj.1
  ext i hi
  interval_cases i <;> simp [keyMask]

theorem unpack_second (a b c : UInt8) :
    (((a &&& keyMask) <<< 2 ||| (b &&& keyMask) >>> 4) &&& 0x03) <<< 4 |||
      ((b &&& keyMask) <<< 4 ||| (c &&& keyMask) >>> 2) >>> 4 = b &&& keyMask := by
  apply UInt8.toBitVec_inj.1
  ext i hi
  interval_cases i <;> simp [keyMask]

theorem unpack_third (b c d : UInt8) :
    (((b &&& keyMask) <<< 4 ||| (c &&& keyMask) >>> 2) &&& 0x0f) <<< 2 |||
      ((c &&& keyMask) <<< 6 ||| (d &&& keyMask)) >>> 6 = c &&& keyMask := by
  apply UInt8.toBitVec_inj.1
  ext i hi
  interval_cases i <;> simp [keyMask]

theorem unpack_fourth (c d : UInt8) :
    ((c &&& keyMask) <<< 6 ||| (d &&& keyMask)) &&& keyMask = d &&& keyMask := by
  apply UInt8.toBitVec_inj.1
  ext i hi
  interval_cases i <;> simp [keyMask]

/-! ## One key -/

theorem startByte_add_four (index : Nat) : startByte (index + 4) = startByte index + 3 := by
  simp only [startByte, groupKeys, groupBytes, Nat.add_mod_right]
  omega

theorem startByte_le_succ (index : Nat) : startByte index ≤ startByte (index + 1) := by
  have hmod : index % 4 < 4 := Nat.mod_lt _ (by decide)
  have hdiv : index / 4 = (index + 1) / 4 ∨ index % 4 = 3 := by omega
  simp only [startByte, groupKeys, groupBytes]
  rcases hdiv with h | h
  · rw [← h, show (index + 1) % 4 = index % 4 + 1 by omega]
    interval_cases index % 4 <;> simp [byteOffset]
  · rw [h, show (index + 1) % 4 = 0 by omega, show (index + 1) / 4 = index / 4 + 1 by omega]
    simp only [byteOffset]
    omega

/-- A key is unpacked by its place in its group alone. -/
theorem unpackKey?_add_four (index : Nat) (bytes : List UInt8) :
    unpackKey? (index + 4) bytes = unpackKey? index bytes := by
  simp only [unpackKey?, groupKeys, Nat.add_mod_right]

/-- Whole groups are packed on their own. -/
theorem pack_group (a b c d : UInt8) (codes : List UInt8) :
    pack (a :: b :: c :: d :: codes) =
      ((a &&& keyMask) <<< 2 ||| (b &&& keyMask) >>> 4) ::
        ((b &&& keyMask) <<< 4 ||| (c &&& keyMask) >>> 2) ::
          ((c &&& keyMask) <<< 6 ||| (d &&& keyMask)) :: pack codes := rfl

/-- **One key.** At its start byte a packed key is read as its low six bits, and
the bytes that are used up then lead to the start byte of the next key. -/
theorem unpackKey?_pack : ∀ (codes rest : List UInt8) (i : Nat) (h : i < codes.length),
    unpackKey? i ((pack codes ++ rest).drop (startByte i)) =
      some (codes[i] &&& keyMask, startByte (i + 1) - startByte i)
  | a :: b :: c :: d :: codes, rest, i + 4, h => by
      have ih := unpackKey?_pack codes rest i (by simpa using h)
      rw [unpackKey?_add_four, startByte_add_four, show i + 4 + 1 = i + 1 + 4 by omega,
        startByte_add_four, Nat.add_sub_add_right, pack_group]
      exact ih
  | a :: b :: _ :: _ :: _, _, 0, _ => congrArg (fun k => some (k, 0)) (unpack_first a b)
  | a :: b :: c :: _ :: _, _, 1, _ => congrArg (fun k => some (k, 1)) (unpack_second a b c)
  | _ :: b :: c :: d :: _, _, 2, _ => congrArg (fun k => some (k, 1)) (unpack_third b c d)
  | _ :: _ :: c :: d :: _, _, 3, _ => congrArg (fun k => some (k, 1)) (unpack_fourth c d)
  -- In a last group that is not full, the next key counts as zero.
  | [a, b, _], _, 0, _ => congrArg (fun k => some (k, 0)) (unpack_first a b)
  | [a, b, c], _, 1, _ => congrArg (fun k => some (k, 1)) (unpack_second a b c)
  | [_, b, c], _, 2, _ => by
      have hkey := unpack_third b c 0
      rw [UInt8.zero_and, UInt8.or_zero] at hkey
      exact congrArg (fun k => some (k, 1)) hkey
  | [a, b], _, 0, _ => congrArg (fun k => some (k, 0)) (unpack_first a b)
  | [a, b], _, 1, _ => by
      have hkey := unpack_second a b 0
      rw [UInt8.zero_and, UInt8.zero_shiftRight, UInt8.or_zero] at hkey
      exact congrArg (fun k => some (k, 1)) hkey
  | [a], _, 0, _ => by
      have hkey := unpack_first a 0
      rw [UInt8.zero_and, UInt8.zero_shiftRight, UInt8.or_zero] at hkey
      exact congrArg (fun k => some (k, 0)) hkey

/-! ## A sequence of keys -/

/-- **A sequence.** From the start byte of its first key, a stretch of a packed
text is read back, whatever follows the text. -/
theorem unpackKeys?_pack (codes rest : List UInt8) (count index : Nat)
    (h : index + count ≤ codes.length) :
    unpackKeys? count index ((pack codes ++ rest).drop (startByte index)) =
      some (((codes.drop index).take count).map (· &&& keyMask)) := by
  induction count generalizing index with
  | zero => simp [unpackKeys?]
  | succ count ih =>
      have hlt : index < codes.length := by omega
      have hused : startByte index + (startByte (index + 1) - startByte index) =
          startByte (index + 1) :=
        Nat.add_sub_cancel' (startByte_le_succ index)
      have hrest := ih (index + 1) (by omega)
      rw [unpackKeys?, unpackKey?_pack codes rest index hlt]
      simp only [List.drop_drop]
      rw [hused, hrest, List.drop_eq_getElem_cons hlt]
      rfl

end Packing

end Chordboard
