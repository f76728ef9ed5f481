/-!
# Extents

An extent is a span of a stream, addressed in bytes or in bits: bit `b` of a
stream is bit `b % 8` of byte `b / 8`, counted from the least significant one.
Addresses have 64 bits; `Extent.stop?` says where an extent ends if that is an
address at all.
-/

namespace DeflateAtlas

/-- What the addresses of an extent count. -/
inductive AddressUnit
  | byte
  | bit
  deriving DecidableEq, Repr

/-- A span of a stream. -/
structure Extent (unit : AddressUnit) where
  offset : Nat
  length : Nat
  deriving DecidableEq, Repr

/-- A span counted in bytes. -/
abbrev ByteExtent := Extent .byte

/-- A span counted in bits. -/
abbrev BitExtent := Extent .bit

/-- The number of addresses there are. -/
def addressLimit : Nat := 1 <<< 64

namespace Extent

variable {unit : AddressUnit}

/-- The first address after an extent. -/
def stop (extent : Extent unit) : Nat :=
  extent.offset + extent.length

/-- The first address after an extent, or nothing if that is no address. -/
def stop? (extent : Extent unit) : Option Nat :=
  if extent.stop < addressLimit then some extent.stop else none

theorem stop?_eq_some_iff {extent : Extent unit} {address : Nat} :
    extent.stop? = some address ↔ extent.stop = address ∧ address < addressLimit := by
  grind [stop?]

/-- An extent comes before another if it begins earlier, or at the same place and is shorter. -/
def precedes (first second : Extent unit) : Bool :=
  first.offset < second.offset ||
    (first.offset == second.offset && first.length ≤ second.length)

/-- Extents in order. -/
def sort (extents : List (Extent unit)) : List (Extent unit) :=
  extents.mergeSort precedes

/-- The total length of some extents. -/
def totalLength (extents : List (Extent unit)) : Nat :=
  (extents.map length).foldr (· + ·) 0

/-- The extent moved to a later place. -/
def shift (extent : Extent unit) (distance : Nat) : Extent unit :=
  { extent with offset := extent.offset + distance }

@[simp]
theorem offset_shift (extent : Extent unit) (distance : Nat) :
    (extent.shift distance).offset = extent.offset + distance :=
  rfl

@[simp]
theorem length_shift (extent : Extent unit) (distance : Nat) :
    (extent.shift distance).length = extent.length :=
  rfl

@[simp]
theorem stop_shift (extent : Extent unit) (distance : Nat) :
    (extent.shift distance).stop = extent.stop + distance := by
  simp only [stop, offset_shift, length_shift]
  omega

end Extent

end DeflateAtlas
