import DeflateAtlas.Stream.Basic

/-!
# Streams over a file

A file stream works on a file through a handle that was opened for reading,
writing or both.  The handle takes as many bytes as the file has left; a file
stream puts it back when these are too few, so that a failed read leaves the
stream where it was.  The operating system itself is taken to do what it is
asked to, and nobody else to touch the file.
-/

namespace DeflateAtlas

/-- An open handle of a file: its place, and what it was opened for. -/
structure FileHandle where
  place : Nat
  readable : Bool
  writable : Bool
  deriving DecidableEq, Repr

/-- A file, and the handle to it as long as the stream is open. -/
structure DiskStream where
  content : Bytes
  handle : Option FileHandle
  deriving DecidableEq, Repr

namespace DiskStream

/-- Open a file at its start.  Opening for writing makes the file if there is none and keeps
what it holds. -/
def open? (file : Option Bytes) (read write : Bool) : Except Failure DiskStream :=
  if read || write then
    match file with
    | some content => .ok ⟨content, some ⟨0, read, write⟩⟩
    | none => if write then .ok ⟨#[], some ⟨0, read, write⟩⟩ else .error .fileMissing
  else
    .error .fileAccessMissing

/-- The handle, if the stream is still open. -/
def opened : StreamAction DiskStream FileHandle := do
  let stream ← get
  match stream.handle with
  | some handle => return handle
  | none => throw .fileClosed

/-- Put the handle to a place. -/
def moveTo (place : Nat) : StreamAction DiskStream Unit :=
  modify fun stream =>
    { stream with handle := stream.handle.map fun handle => { handle with place } }

/-- Take up to `length` bytes, as many as the file has after the handle. -/
def takeUpTo (length : Nat) : StreamAction DiskStream Bytes := do
  let handle ← opened
  if handle.readable ∨ length = 0 then
    let stream ← get
    let bytes := stream.content.slice handle.place length
    moveTo (handle.place + bytes.size)
    return bytes
  else
    throw .fileNotReadable

/-- The size of the file. -/
def size : StreamAction DiskStream Nat := do
  let _ ← opened
  let stream ← get
  return stream.content.size

/-- The place of the handle. -/
def offset : StreamAction DiskStream Nat := do
  let handle ← opened
  return handle.place

/-- Move to a place in the file or to its end. -/
def seek (place : Nat) : StreamAction DiskStream Unit := do
  let length ← size
  if length < place then
    throw .fileSeekPastEnd
  else
    moveTo place

/-- Read `length` bytes from the file. -/
def read (length : Nat) : StreamAction DiskStream Bytes := do
  let handle ← opened
  let bytes ← takeUpTo length
  if bytes.size < length then
    moveTo handle.place
    throw .fileEnded
  else
    return bytes

/-- Write bytes over the file. -/
def write (bytes : Bytes) : StreamAction DiskStream Unit := do
  let handle ← opened
  if handle.writable ∨ bytes.isEmpty then
    modify fun stream => { stream with content := stream.content.overwrite handle.place bytes }
    moveTo (handle.place + bytes.size)
  else
    throw .fileNotWritable

/-- Let go of the file. -/
def close : StreamAction DiskStream Unit := do
  let _ ← opened
  modify fun stream => { stream with handle := none }

end DiskStream

instance : ByteStream DiskStream where
  size := DiskStream.size
  offset := DiskStream.offset
  seek := DiskStream.seek
  read := DiskStream.read
  write := DiskStream.write
  close := DiskStream.close

end DeflateAtlas
