import DeflateAtlas.Deflate.Parse

/-!
# Puff records

The puff of a deflate stream spells every part of the stream in whole bytes,
so that a small change of the content makes a small, local change of the puff.

* A block begins with a byte that holds its kind in the two highest bits and
  the final flag in the next one.
* A stored block goes on with the padding, its length, the low byte first, and
  its bytes.
* A dynamic block goes on with its three counts, each less its minimum, the
  lengths of the code length code, and the entries of its table.
* A run of at most 128 literals is one less than their number and the literals.
* A reference is 0x80, or 0x81 if it is irregular, its length less 3, and its
  distance less 1, the high byte first.
* A block of tokens ends with 0xff.
* The bits after the final block are the last byte.
-/

namespace DeflateAtlas.Puff

open Deflate

/-- The greatest number of literals in one run. -/
def maxRun : Nat := 128

/-- The first byte of a reference. -/
def referenceMarker : Bool → UInt8
  | false => 0x80
  | true => 0x81

/-- The record of the end of a block. -/
def endOfBlockMarker : UInt8 := 0xff

/-- The record of a run of literals. -/
def literalRun (literals : Bytes) : Bytes :=
  #[(literals.size - 1).toUInt8] ++ literals

/-- A number in two bytes, the high one first. -/
def bigEndian16 (number : Nat) : List UInt8 :=
  (toLittleEndian 2 number).reverse

/-- The record of one entry of a dynamic table. -/
def entryRecord : LengthEntry → List UInt8
  | .single length => [length.toUInt8]
  | .repeatPrevious count => [16, count.toUInt8]
  | .fewZeros count => [17, count.toUInt8]
  | .manyZeros count => [18, count.toUInt8]

/-- The record of a dynamic table. -/
def tableRecord (header : DynamicHeader) : List UInt8 :=
  [(header.literalCount - 257).toUInt8, (header.distanceCount - 1).toUInt8,
    (header.sentLengths.length - 4).toUInt8] ++
    header.sentLengths.map Nat.toUInt8 ++ header.entries.flatMap entryRecord

/-- The record of an element; a literal by itself is a run of one. -/
def record : Element → Bytes
  | .header kind last => #[(kind.number * 64 + last.toNat * 32).toUInt8]
  | .stored padding bytes => #[padding] ++ toLittleEndian 2 bytes.size ++ bytes
  | .table header => (tableRecord header).toArray
  | .token (.literal byte) => literalRun #[byte]
  | .token (.reference length distance irregular) =>
      #[referenceMarker irregular, (length - minMatch).toUInt8] ++ bigEndian16 (distance - 1)
  | .endOfBlock => #[endOfBlockMarker]
  | .finalPadding padding => #[padding]

/-- The bytes of every kind of record. -/
example :
    record (.header .stored false) = #[0x00] ∧ record (.header .fixed false) = #[0x40] ∧
    record (.header .dynamic true) = #[0xa0] ∧
    record (.stored 5 #[97, 98]) = #[5, 2, 0, 97, 98] ∧
    record (.table ⟨286, 30, [0, 3, 7, 2, 5],
        [.single 15, .repeatPrevious 6, .fewZeros 10, .manyZeros 138]⟩) =
      #[29, 29, 1, 0, 3, 7, 2, 5, 15, 16, 6, 17, 10, 18, 138] ∧
    record (.token (.literal 97)) = #[0x00, 97] ∧
    maxRun = 128 ∧ (literalRun (Array.replicate maxRun 97))[0]? = some 0x7f ∧
    literalRun #[97, 98, 99] = #[0x02, 97, 98, 99] ∧
    record (.token (.reference 258 32768 false)) = #[0x80, 0xff, 0x7f, 0xff] ∧
    record (.token (.reference 258 1 true)) = #[0x81, 0xff, 0x00, 0x00] ∧
    record .endOfBlock = #[0xff] ∧ record (.finalPadding 5) = #[5] := by
  decide +kernel

@[simp]
theorem size_literalRun (literals : Bytes) : (literalRun literals).size = literals.size + 1 := by
  simp [literalRun]
  omega

end DeflateAtlas.Puff
