import DeflateAtlas.Stream.Basic

/-!
# Streams over a buffer

A buffer stream reads a buffer, or reads and overwrites it; what is written
beyond the end of the buffer makes it longer.
-/

namespace DeflateAtlas

/-- A stream over a buffer. -/
structure BufferStream where
  content : Bytes
  place : Nat
  isOpen : Bool
  /-- Whether the buffer may be written. -/
  writable : Bool
  deriving DecidableEq, Repr

namespace BufferStream

/-- A stream that reads a buffer. -/
def reading (content : Bytes) : BufferStream :=
  ⟨content, 0, true, false⟩

/-- A stream that reads and overwrites a buffer, from its start. -/
def writing (content : Bytes) : BufferStream :=
  ⟨content, 0, true, true⟩

/-- The stream, if it is still open. -/
def opened : StreamAction BufferStream BufferStream := do
  let stream ← get
  if stream.isOpen then
    return stream
  else
    throw .bufferClosed

/-- The size of the buffer. -/
def size : StreamAction BufferStream Nat := do
  let stream ← opened
  return stream.content.size

/-- The current place in the buffer. -/
def offset : StreamAction BufferStream Nat := do
  let stream ← opened
  return stream.place

/-- Move to a place in the buffer or to its end. -/
def seek (place : Nat) : StreamAction BufferStream Unit := do
  let stream ← opened
  if stream.content.size < place then
    throw .bufferSeekPastEnd
  else
    set { stream with place }

/-- Read `length` bytes from the buffer. -/
def read (length : Nat) : StreamAction BufferStream Bytes := do
  let stream ← opened
  if stream.content.size < stream.place + length then
    throw .bufferReadPastEnd
  else
    set { stream with place := stream.place + length }
    return stream.content.slice stream.place length

/-- Write bytes over the buffer. -/
def write (bytes : Bytes) : StreamAction BufferStream Unit := do
  let stream ← opened
  if stream.writable then
    set { stream with
      content := stream.content.overwrite stream.place bytes
      place := stream.place + bytes.size }
  else
    throw .bufferReadOnly

/-- Let go of the buffer. -/
def close : StreamAction BufferStream Unit := do
  let stream ← opened
  set { stream with isOpen := false }

end BufferStream

instance : ByteStream BufferStream where
  size := BufferStream.size
  offset := BufferStream.offset
  seek := BufferStream.seek
  read := BufferStream.read
  write := BufferStream.write
  close := BufferStream.close

end DeflateAtlas
