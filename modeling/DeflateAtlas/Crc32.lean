import DeflateAtlas.Bytes

/-!
# The checksum of zip and gzip

CRC-32 with the reflected polynomial `0xedb88320` (RFC 1952, 8).
-/

namespace DeflateAtlas.Crc32

/-- Divide one more bit. -/
def shiftBit (register : UInt32) : UInt32 :=
  if register &&& 1 = 1 then (register >>> 1) ^^^ 0xedb88320 else register >>> 1

/-- Divide one more byte. -/
def shiftByte (register : UInt32) (byte : UInt8) : UInt32 :=
  (List.range 8).foldl (fun shifted _ => shiftBit shifted) (register ^^^ byte.toUInt32)

/-- The checksum of some bytes. -/
def checksum (data : Bytes) : UInt32 :=
  ~~~(data.foldl shiftByte 0xffffffff)

/-- The check value of CRC-32, the checksum of the digits from 1 to 9, and that of the letter a. -/
example :
    checksum #[49, 50, 51, 52, 53, 54, 55, 56, 57] = 0xcbf43926 ∧ checksum #[97] = 0xe8b7be43 := by
  decide +kernel

/-- The `width` lowest hexadecimal digits of a number, the highest digit first. -/
def hexDigits (width number : Nat) : List Char :=
  (List.range width).reverse.map fun place => Nat.digitChar (number >>> (4 * place) % 16)

/-- A checksum as eight hexadecimal digits. -/
def render (crc : UInt32) : String :=
  String.ofList (hexDigits 8 crc.toNat)

end DeflateAtlas.Crc32
