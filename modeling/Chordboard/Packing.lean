/-!
# Packed keys

Key codes of six bits, four of them packed into three bytes, the first bit
of a code being the highest bit still free:

    byte 0    byte 1    byte 2
    aaaaaabb  bbbbcccc  ccdddddd

A last group of one, two or three keys takes one, two or three bytes, and
the bits it leaves over are zero. Packing keeps the low six bits of each
code. A text is packed as a whole (`pack`), or key by key into a buffer
(`packOver`). Unpacking goes key by key: it is given the bytes from the one that
holds the first bits of the key, and answers the code together with the
number of bytes that are now used up.
-/

namespace Chordboard

namespace Packing

def keyMask : UInt8 := 0x3f

def groupKeys : Nat := 4

def groupBytes : Nat := 3

/-- The byte, within a group, that holds the first bits of a key of the
group. -/
def byteOffset : (place : Nat) → Nat
  | 0 => 0
  | 1 => 0
  | 2 => 1
  | _ => 2

/-- The byte that holds the first bits of key number `index`. -/
def startByte (index : Nat) : Nat :=
  index / groupKeys * groupBytes + byteOffset (index % groupKeys)

/-! ## Packing -/

/-- The number of bytes that `keys` packed keys take. -/
def packedLength (keys : Nat) : Nat :=
  keys / groupKeys * groupBytes + keys % groupKeys

/-- Packs codes that have six bits. -/
def packCodes : List UInt8 → List UInt8
  | a :: b :: c :: d :: rest =>
      (a <<< 2 ||| b >>> 4) :: (b <<< 4 ||| c >>> 2) :: (c <<< 6 ||| d) :: packCodes rest
  | [a, b, c] => [a <<< 2 ||| b >>> 4, b <<< 4 ||| c >>> 2, c <<< 6]
  | [a, b] => [a <<< 2 ||| b >>> 4, b <<< 4]
  | [a] => [a <<< 2]
  | [] => []

/-- Packs the low six bits of each code. -/
def pack (codes : List UInt8) : List UInt8 :=
  packCodes (codes.map (· &&& keyMask))

theorem length_packCodes (codes : List UInt8) :
    (packCodes codes).length = packedLength codes.length := by
  fun_induction packCodes codes with
  | case1 a b c d rest ih =>
      simp only [List.length_cons, ih, packedLength, groupKeys, groupBytes]
      omega
  | case2 => simp [packedLength, groupKeys, groupBytes]
  | case3 => simp [packedLength, groupKeys, groupBytes]
  | case4 => simp [packedLength, groupKeys, groupBytes]
  | case5 => simp [packedLength]

/-- A packed text takes as many bytes as its length class says. -/
@[simp] theorem length_pack (codes : List UInt8) :
    (pack codes).length = packedLength codes.length := by
  simp [pack, length_packCodes]

/-! ## Packing in place -/

/-- Adds bits to the byte at a position. -/
def addBits (position : Nat) (bits : UInt8) (bytes : List UInt8) : List UInt8 :=
  bytes.modify position (· ||| bits)

/-- Adds the bits of a code where key number `index` stands. Those of the second
and of the third key of a group go into two bytes. -/
def placeKey (index : Nat) (code : UInt8) (bytes : List UInt8) : List UInt8 :=
  let start := startByte index
  match index % groupKeys with
  | 0 => addBits start (code <<< 2) bytes
  | 1 => addBits (start + 1) (code <<< 4) (addBits start (code >>> 4) bytes)
  | 2 => addBits (start + 1) (code <<< 6) (addBits start (code >>> 2) bytes)
  | _ => addBits start code bytes

/-- Adds the codes of a row of keys, the first of them being key number
`index`. -/
def placeKeys : (index : Nat) → List UInt8 → List UInt8 → List UInt8
  | _, [], bytes => bytes
  | index, code :: codes, bytes => placeKeys (index + 1) codes (placeKey index code bytes)

/-- Packs into the front of a buffer, which is cleared first: the number of
bytes that were written, and the buffer afterwards. A buffer that is too small
is refused, and left as it is. -/
def packOver (codes buffer : List UInt8) : Option Nat × List UInt8 :=
  let length := packedLength codes.length
  if length ≤ buffer.length then
    (some length,
      placeKeys 0 (codes.map (· &&& keyMask)) (List.replicate length 0 ++ buffer.drop length))
  else (none, buffer)

/-- The buffer afterwards, if it was not refused. -/
def packInto (codes buffer : List UInt8) : Option (List UInt8) :=
  let packed := packOver codes buffer
  packed.1.map fun _ => packed.2

/-! ## Unpacking -/

/-- Unpacks key number `index` from the bytes that start with its first bits:
its code, and how many of the bytes are used up then. There is no key where a
byte is missing. -/
def unpackKey? (index : Nat) (bytes : List UInt8) : Option (UInt8 × Nat) :=
  match index % groupKeys, bytes with
  | 0, first :: _ => some (first >>> 2, 0)
  | 1, first :: second :: _ => some ((first &&& 0x03) <<< 4 ||| second >>> 4, 1)
  | 2, first :: second :: _ => some ((first &&& 0x0f) <<< 2 ||| second >>> 6, 1)
  | 3, first :: _ => some (first &&& keyMask, 1)
  | _, _ => none

/-- Unpacks `count` keys in a row, the first of them being key number `index`
of its table. -/
def unpackKeys? : (count index : Nat) → List UInt8 → Option (List UInt8)
  | 0, _, _ => some []
  | count + 1, index, bytes =>
      match unpackKey? index bytes with
      | none => none
      | some (code, used) =>
          (unpackKeys? count (index + 1) (bytes.drop used)).map (code :: ·)

theorem length_of_unpackKeys? {count index : Nat} {bytes codes : List UInt8}
    (h : unpackKeys? count index bytes = some codes) : codes.length = count := by
  induction count generalizing index bytes codes with
  | zero => cases h; rfl
  | succ count ih =>
      rw [unpackKeys?] at h
      split at h
      · cases h
      · obtain ⟨rest, hrest, rfl⟩ := Option.map_eq_some_iff.1 h
        rw [List.length_cons, ih hrest]

end Packing

end Chordboard
