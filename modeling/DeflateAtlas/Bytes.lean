import DeflateAtlas.Bits

/-!
# Bytes and the numbers written in them

A buffer is an array of bytes.  File formats write a number in a fixed number
of bytes, the least significant one first; `littleEndian` reads such a number
and `toLittleEndian` writes it.
-/

namespace DeflateAtlas

/-- A buffer of bytes. -/
abbrev Bytes := Array UInt8

/-- The number written in some bytes, the least significant byte first. -/
def littleEndian : List UInt8 → Nat
  | [] => 0
  | byte :: bytes => byte.toNat + 256 * littleEndian bytes

/-- The low `width` bytes of a number, the least significant byte first. -/
def toLittleEndian : (width number : Nat) → List UInt8
  | 0, _ => []
  | width + 1, number => number.toUInt8 :: toLittleEndian width (number / 256)

@[simp]
theorem length_toLittleEndian (width number : Nat) :
    (toLittleEndian width number).length = width := by
  induction width generalizing number with
  | zero => rfl
  | succ width ih => simp [toLittleEndian, ih]

/-- The number of bytes that some bits take; a byte taken in part counts whole. -/
def bytesForBits (bits : Nat) : Nat :=
  (bits + 7) / 8

/-- The bits of some bytes, the least significant bit of each byte first. -/
def bitsOfBytes (bytes : List UInt8) : List Bool :=
  bytes.flatMap fun byte => lowBits 8 byte.toNat

@[simp]
theorem bitsOfBytes_nil : bitsOfBytes [] = [] :=
  rfl

@[simp]
theorem bitsOfBytes_cons (byte : UInt8) (bytes : List UInt8) :
    bitsOfBytes (byte :: bytes) = lowBits 8 byte.toNat ++ bitsOfBytes bytes :=
  rfl

@[simp]
theorem bitsOfBytes_append (first second : List UInt8) :
    bitsOfBytes (first ++ second) = bitsOfBytes first ++ bitsOfBytes second := by
  simp [bitsOfBytes]

@[simp]
theorem length_bitsOfBytes (bytes : List UInt8) :
    (bitsOfBytes bytes).length = bytes.length * 8 := by
  induction bytes with
  | nil => rfl
  | cons byte bytes ih =>
      simp only [bitsOfBytes_cons, List.length_append, length_lowBits, ih, List.length_cons]
      omega

namespace Bytes

/-- The bytes from `start` on, at most `length` of them. -/
def slice (data : Bytes) (start length : Nat) : Bytes :=
  data.extract start (start + length)

theorem size_slice {data : Bytes} {start length : Nat}
    (inside : start + length ≤ data.size) : (data.slice start length).size = length := by
  simp [slice]
  omega

/-- The number written in the `width` bytes from `start` on. -/
def field (data : Bytes) (start width : Nat) : Nat :=
  littleEndian (data.slice start width).toList

/-- The buffer with some bytes written over it from `start` on, longer if need be. -/
def overwrite (data : Bytes) (start : Nat) (bytes : Bytes) : Bytes :=
  data.extract 0 start ++ bytes ++ data.extract (start + bytes.size) data.size

theorem size_overwrite {data : Bytes} {start : Nat} (bytes : Bytes)
    (inside : start ≤ data.size) :
    (data.overwrite start bytes).size = max data.size (start + bytes.size) := by
  simp [overwrite]
  omega

end Bytes

end DeflateAtlas
