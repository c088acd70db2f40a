import Chordboard.Proofs.Dictionary.PackedKeys

/-!
# Packing into a buffer

Packing in place goes key by key and adds the bits of each code to bytes that hold those of the
keys before it. After any number of keys the buffer is a `workspace`: the packed text of these
keys, zeros up to the bytes that will be written, and what the buffer held behind them.
`placeKey_workspace` is the step to the next key, and `placeKeys_workspace` the whole loop, so
that a buffer ends up with the packed text in front (`packOver_eq`).

`unpackSteps` reads a packed text as a reader does that keeps count of the bytes used up.
-/

namespace Chordboard

namespace Packing

/-- A text takes six bits for each key, and whole bytes. -/
theorem packedLength_eq (keys : Nat) : packedLength keys = (6 * keys + 7) / 8 := by
  simp only [packedLength, groupKeys, groupBytes]
  omega

theorem packedLength_mono {keys keys' : Nat} (h : keys ≤ keys') :
    packedLength keys ≤ packedLength keys' := by
  rw [packedLength_eq, packedLength_eq]
  omega

/-! ## One key more -/

/-- A buffer in which the codes `done` are packed, of the `length` bytes that are to be
written. -/
def workspace (length : Nat) (done rest : List UInt8) : List UInt8 :=
  packCodes done ++ List.replicate (length - (packCodes done).length) 0 ++ rest

/-- Nothing is packed yet. -/
theorem workspace_nil (length : Nat) (rest : List UInt8) :
    workspace length [] rest = List.replicate length 0 ++ rest := rfl

/-- Everything is packed. -/
theorem workspace_full (codes rest : List UInt8) :
    workspace (packedLength codes.length) codes rest = packCodes codes ++ rest := by
  simp [workspace, length_packCodes]

/-- A whole group has its own three bytes. -/
theorem workspace_group (length : Nat) (a b c d : UInt8) (done rest : List UInt8) :
    workspace (length + 3) (a :: b :: c :: d :: done) rest =
      (a <<< 2 ||| b >>> 4) :: (b <<< 4 ||| c >>> 2) :: (c <<< 6 ||| d) ::
        workspace length done rest := by
  simp [workspace, packCodes]

theorem addBits_succ (position : Nat) (bits byte : UInt8) (bytes : List UInt8) :
    addBits (position + 1) bits (byte :: bytes) = byte :: addBits position bits bytes :=
  List.modify_succ_cons ..

/-- Behind a whole group keys are placed as at the beginning. -/
theorem placeKey_add_four (index : Nat) (code x y z : UInt8) (bytes : List UInt8) :
    placeKey (index + 4) code (x :: y :: z :: bytes) =
      x :: y :: z :: placeKey index code bytes := by
  have hplace : (index + 4) % groupKeys = index % groupKeys := Nat.add_mod_right index 4
  unfold placeKey
  rw [hplace, startByte_add_four]
  split <;> simp only [addBits_succ, Nat.add_right_comm _ 3 1]

/-- **One step.** With room for one key more, placing it packs it behind the others. -/
theorem placeKey_workspace (rest : List UInt8) (code : UInt8) :
    ∀ (done : List UInt8) (length : Nat), packedLength (done.length + 1) ≤ length →
      placeKey done.length code (workspace length done rest) =
        workspace length (done ++ [code]) rest
  | a :: b :: c :: d :: done, length, room => by
      have hroom : packedLength (done.length + 1) + 3 ≤ length := by
        rw [packedLength_eq] at room ⊢
        simp only [List.length_cons] at room
        omega
      obtain ⟨length, rfl⟩ : ∃ l, length = l + 3 := Nat.exists_eq_add_of_le' (by omega)
      have ih := placeKey_workspace rest code done length (by omega)
      show placeKey (done.length + 4) code (workspace (length + 3) _ rest) = _
      rw [workspace_group, placeKey_add_four, ih, ← workspace_group]
      rfl
  | [], length, room => by
      have hroom : 1 ≤ length := by simpa [packedLength, groupKeys, groupBytes] using room
      obtain ⟨length, rfl⟩ := Nat.exists_eq_add_of_le' hroom
      simp [workspace, packCodes, List.replicate_succ, placeKey, groupKeys, startByte, byteOffset,
        addBits]
  | [a], length, room => by
      have hroom : 2 ≤ length := by simpa [packedLength, groupKeys, groupBytes] using room
      obtain ⟨length, rfl⟩ := Nat.exists_eq_add_of_le' hroom
      simp [workspace, packCodes, List.replicate_succ, placeKey, groupKeys, startByte, byteOffset,
        addBits]
  | [a, b], length, room => by
      have hroom : 3 ≤ length := by simpa [packedLength, groupKeys, groupBytes] using room
      obtain ⟨length, rfl⟩ := Nat.exists_eq_add_of_le' hroom
      simp [workspace, packCodes, List.replicate_succ, placeKey, groupKeys, startByte, byteOffset,
        addBits]
  | [a, b, c], length, room => by
      have hroom : 3 ≤ length := by simpa [packedLength, groupKeys, groupBytes] using room
      obtain ⟨length, rfl⟩ := Nat.exists_eq_add_of_le' hroom
      simp [workspace, packCodes, placeKey, groupKeys, startByte, byteOffset, addBits]

/-! ## All keys -/

/-- **The loop.** The keys that are placed one after another are packed behind those that were
there. -/
theorem placeKeys_workspace (codes done rest : List UInt8) (length : Nat)
    (room : packedLength (done.length + codes.length) ≤ length) :
    placeKeys done.length codes (workspace length done rest) =
      workspace length (done ++ codes) rest := by
  induction codes generalizing done with
  | nil => rw [placeKeys, List.append_nil]
  | cons code codes ih =>
      have hone : packedLength (done.length + 1) ≤ length := by
        refine (packedLength_mono ?_).trans room
        simp
      have hdone : (done ++ [code]).length = done.length + 1 := List.length_append
      rw [placeKeys, placeKey_workspace rest code done length hone, ← hdone, ih, List.append_assoc]
      · rfl
      · rw [hdone]
        simpa [Nat.add_right_comm, Nat.add_assoc, Nat.add_comm 1] using room

/-- A buffer that is large enough gets the packed text in front. -/
theorem packOver_eq (codes buffer : List UInt8) :
    packOver codes buffer =
      if packedLength codes.length ≤ buffer.length then
        (some (packedLength codes.length),
          pack codes ++ buffer.drop (packedLength codes.length))
      else (none, buffer) := by
  have hplaced (rest : List UInt8) :
      placeKeys 0 (codes.map (· &&& keyMask))
        (List.replicate (packedLength codes.length) 0 ++ rest) = pack codes ++ rest := by
    have hmasked : (codes.map (· &&& keyMask)).length = codes.length := List.length_map _
    have hloop := placeKeys_workspace (codes.map (· &&& keyMask)) [] rest
      (packedLength codes.length) (by simp)
    rw [List.nil_append, workspace_nil, ← hmasked, workspace_full, hmasked] at hloop
    exact hloop
  unfold packOver
  dsimp only
  rw [hplaced]

/-! ## Reading in order -/

/-- Unpacks `count` keys in a row from the byte at `position` on, and moves on by the bytes that
each of them uses up: the position of each key, and its code. -/
def unpackSteps (bytes : List UInt8) :
    (count index position : Nat) → Option (List (Nat × UInt8))
  | 0, _, _ => some []
  | count + 1, index, position =>
      match unpackKey? index (bytes.drop position) with
      | none => none
      | some (code, used) =>
          (unpackSteps bytes count (index + 1) (position + used)).map ((position, code) :: ·)

theorem unpackSteps_pack (codes rest : List UInt8) (count index : Nat)
    (h : index + count ≤ codes.length) :
    unpackSteps (pack codes ++ rest) count index (startByte index) =
      some (((codes.mapIdx fun i code => (startByte i, code &&& keyMask)).drop index).take
        count) := by
  induction count generalizing index with
  | zero => simp [unpackSteps]
  | succ count ih =>
      have hlt : index < codes.length := by omega
      have hused : startByte index + (startByte (index + 1) - startByte index) =
          startByte (index + 1) :=
        Nat.add_sub_cancel' (startByte_le_succ index)
      have hrest := ih (index + 1) (by omega)
      rw [unpackSteps, unpackKey?_pack codes rest index hlt]
      dsimp only
      rw [hused, hrest, List.drop_eq_getElem_cons (i := index) (by rwa [List.length_mapIdx]),
        List.take_succ_cons, List.getElem_mapIdx]
      rfl

/-- **Packing into a buffer and reading it back.** A buffer that has fewer bytes than the keys
have, at six bits each, is refused and left alone. Any other gets exactly so many bytes written
and keeps those behind them. What was written is read back in order from the first byte on:
every key is found at its start byte, and comes out as its low six bits. -/
theorem unpackSteps_packOver (codes buffer : List UInt8) :
    packedLength codes.length = (6 * codes.length + 7) / 8 ∧
      (packOver codes buffer = (none, buffer) ↔ buffer.length < packedLength codes.length) ∧
      (packedLength codes.length ≤ buffer.length → ∃ written,
        packOver codes buffer =
            (some (packedLength codes.length),
              written ++ buffer.drop (packedLength codes.length)) ∧
          written.length = packedLength codes.length ∧
          unpackSteps written codes.length 0 0 =
            some (codes.mapIdx fun i code => (startByte i, code &&& keyMask))) := by
  refine ⟨packedLength_eq codes.length, ?_, ?_⟩
  · rw [packOver_eq]
    by_cases room : packedLength codes.length ≤ buffer.length
    · simp [room]
    · simp [room, Nat.lt_of_not_le room]
  · intro room
    refine ⟨pack codes, ?_, length_pack codes, ?_⟩
    · rw [packOver_eq, if_pos room]
    · have hread := unpackSteps_pack codes [] codes.length 0 (by simp)
      rw [List.append_nil, List.drop_zero, List.take_of_length_le (by simp)] at hread
      exact hread

/-- Seven keys, with a last group of three, and one of them of more than six bits. -/
def sevenKeys : List UInt8 := [4, 5, 63, 0, 44, 129, 30]

/-- A buffer of eight bytes keeps its last two, and the seven keys are read back. A buffer of
five bytes is refused. -/
theorem sevenKeys_packOver :
    packOver sevenKeys (List.replicate 5 255) = (none, List.replicate 5 255) ∧
      ∃ written, packOver sevenKeys (List.replicate 8 255) = (some 6, written ++ [255, 255]) ∧
        unpackSteps written 7 0 0 =
          some [(0, 4), (0, 5), (1, 63), (2, 0), (3, 44), (3, 1), (4, 30)] := by
  obtain ⟨-, hrefused, -⟩ := unpackSteps_packOver sevenKeys (List.replicate 5 255)
  obtain ⟨-, -, hlarge⟩ := unpackSteps_packOver sevenKeys (List.replicate 8 255)
  obtain ⟨written, hpacked, -, hread⟩ := hlarge (by decide)
  exact ⟨hrefused.2 (by decide), written, hpacked, hread⟩

end Packing

end Chordboard
