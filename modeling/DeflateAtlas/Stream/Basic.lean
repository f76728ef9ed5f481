import DeflateAtlas.Bytes
import DeflateAtlas.Failure

/-!
# Streams

A stream is a seekable source or sink of bytes with a current place.  Reads
and writes are all or nothing.  After a stream is closed every operation
fails.
-/

namespace DeflateAtlas

/-- Something done with a stream; on failure the stream is kept as it was left. -/
abbrev StreamAction (σ : Type) := EStateM Failure σ

/-- What can be done with streams of type `σ`. -/
class ByteStream (σ : Type) where
  /-- The size of the whole stream in bytes. -/
  size : StreamAction σ Nat
  /-- The current place in bytes. -/
  offset : StreamAction σ Nat
  /-- Move to a place, which may be the end of the stream but not beyond. -/
  seek : (place : Nat) → StreamAction σ Unit
  /-- Read exactly `length` bytes from the current place on. -/
  read : (length : Nat) → StreamAction σ Bytes
  /-- Write all bytes at the current place. -/
  write : (bytes : Bytes) → StreamAction σ Unit
  /-- Release the stream. -/
  close : StreamAction σ Unit

end DeflateAtlas
