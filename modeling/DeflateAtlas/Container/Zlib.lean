import DeflateAtlas.Locate.Blocks
import DeflateAtlas.Stream.Disk

/-!
# Zlib streams

A zlib stream (RFC 1950) is a header of two bytes, four more bytes if it names
a dictionary, a deflate stream, and a checksum of four bytes, which is neither
read nor checked here.
-/

namespace DeflateAtlas.Zlib

open Survey

/-- The fields of the two bytes that begin a zlib stream. -/
structure Header where
  /-- The compression method; 8 is deflate. -/
  method : Nat
  /-- The binary logarithm of the window size, less 8. -/
  window : Nat
  /-- Makes the two bytes a multiple of 31. -/
  check : Nat
  /-- The four bytes of a dictionary number follow. -/
  hasDictionary : Bool
  /-- How hard the compressor tried. -/
  level : Nat
  deriving DecidableEq, Repr

namespace Header

/-- Decode the two bytes that begin a zlib stream. -/
def parse (first second : UInt8) : Except Failure Header :=
  let method := first.toNat % 16
  let window := first.toNat / 16
  if method ≠ 8 ∧ method ≠ 15 then
    .error (.zlibMethod method)
  else if 7 < window then
    .error (.zlibWindow window)
  else if (first.toNat * 256 + second.toNat) % 31 ≠ 0 then
    .error .zlibCheck
  else
    .ok
      { method, window
        check := second.toNat % 32
        hasDictionary := second.toNat.testBit 5
        level := second.toNat / 64 }

/-- The number of bytes before the deflate data. -/
def size (header : Header) : Nat :=
  if header.hasDictionary then 6 else 2

end Header

/-- The size of the checksum at the end of a zlib stream. -/
def trailerSize : Nat := 4

variable {τ σ : Type} [ByteStream σ]

/-- Decode the header of the zlib stream that begins at a place, and read on past it. -/
def readHeader (place : Nat) : Survey τ σ Header := do
  let bytes ← readAt place 2
  match Header.parse (bytes.getD 0 0) (bytes.getD 1 0) with
  | .error failure =>
      note (failure.events ++ [⟨.error, s!"Invalid zlib header at offset {place}"⟩])
      throw failure
  | .ok header =>
      if header.hasDictionary then
        let _ ← onStream (ByteStream.read 4)
      return header

/-- The extent of the deflate data in a zlib stream. -/
def payload (zlib : ByteExtent) : Survey τ σ ByteExtent := do
  let size ← onStream ByteStream.size
  if ¬ zlib.endsWithin size then
    fail .zlibExtentPastEnd
  else
    let header ← readHeader zlib.offset
    if zlib.length < header.size + trailerSize then
      fail .zlibExtentTooShort
    else
      return ⟨zlib.offset + header.size, zlib.length - (header.size + trailerSize)⟩

/-- The deflate blocks in one zlib stream. -/
def blocksOfStream [Transform τ] (zlib : ByteExtent) : Survey τ σ (List BitExtent) := do
  let deflate ← payload zlib
  deflateBlocks [deflate]

/-- The deflate blocks in zlib streams; one bad stream fails the whole survey. -/
def blocks [Transform τ] (zlibs : List ByteExtent) : Survey τ σ (List BitExtent) := do
  let groups ← zlibs.mapM blocksOfStream
  return groups.flatten

/-- The deflate blocks in the zlib streams of a file, which may not exist, and the log. -/
def fileBlocks [Transform τ] (transform : τ) (file : Option Bytes) (zlibs : List ByteExtent) :
    Except Failure (List BitExtent) × Log :=
  match DiskStream.open? file true false with
  | .error failure => (.error failure, [])
  | .ok stream => (blocks zlibs).outcome (Survey.start transform stream)

end DeflateAtlas.Zlib
