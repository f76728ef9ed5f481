import DeflateAtlas.Puff.Record

/-!
# Writing puffs

A sink appends records to a buffer, or only counts the bytes when nothing but
the size of a puff is asked for.  Literals wait in the sink until their run
is full or another record follows, so neighbouring literals share a run;
`size` counts the waiting ones as the run they would make.
-/

namespace DeflateAtlas.Puff

open Deflate

/-- The destination of a puff. -/
structure Sink where
  /-- The buffer that records are appended to, unless they are only counted. -/
  output : Option Bytes
  /-- How many bytes have been appended. -/
  written : Nat
  /-- The literals that wait for their run to end. -/
  waiting : Bytes
  deriving DecidableEq, Repr

namespace Sink

/-- A sink that appends to a buffer. -/
def appending (buffer : Bytes) : Sink :=
  ⟨some buffer, 0, #[]⟩

/-- A sink that only counts. -/
def measuring : Sink :=
  ⟨none, 0, #[]⟩

/-- The size of the record that waiting literals would make. -/
def runSize (literals : Nat) : Nat :=
  if literals = 0 then 0 else literals + 1

/-- The number of bytes produced so far, with those of the waiting literals. -/
def size (sink : Sink) : Nat :=
  sink.written + runSize sink.waiting.size

/-- Append bytes. -/
def append : Sink → Bytes → Sink
  | ⟨some buffer, written, waiting⟩, bytes =>
      ⟨some (buffer ++ bytes), written + bytes.size, waiting⟩
  | ⟨none, written, waiting⟩, bytes =>
      ⟨none, written + bytes.size, waiting⟩

/-- Write the waiting literals as a run. -/
def flush (sink : Sink) : Sink :=
  if sink.waiting.isEmpty then
    sink
  else
    let ⟨output, written, waiting⟩ := sink
    append ⟨output, written, #[]⟩ (literalRun waiting)

/-- Add a literal, which waits unless it fills its run. -/
def insertLiteral : Sink → UInt8 → Sink
  | ⟨output, written, waiting⟩, byte =>
      let literals := waiting.push byte
      if literals.size = maxRun then
        flush ⟨output, written, literals⟩
      else
        ⟨output, written, literals⟩

/-- Add an element; all but literals end the run of waiting literals. -/
def insert (sink : Sink) : Element → Sink
  | .token (.literal byte) => sink.insertLiteral byte
  | element => sink.flush.append (record element)

/-- Add elements in order. -/
def insertAll (sink : Sink) (elements : Array Element) : Sink :=
  elements.foldl insert sink

@[simp]
theorem written_append (sink : Sink) (bytes : Bytes) :
    (sink.append bytes).written = sink.written + bytes.size := by
  rcases sink with ⟨_ | buffer, written, waiting⟩ <;> rfl

@[simp]
theorem waiting_append (sink : Sink) (bytes : Bytes) :
    (sink.append bytes).waiting = sink.waiting := by
  rcases sink with ⟨_ | buffer, written, waiting⟩ <;> rfl

@[simp]
theorem waiting_flush (sink : Sink) : sink.flush.waiting = #[] := by
  unfold flush
  split
  · rename_i isEmpty
    simpa using isEmpty
  · simp

/-- Writing the waiting literals does not change the size. -/
@[simp]
theorem size_flush (sink : Sink) : sink.flush.size = sink.size := by
  unfold flush
  split
  · rfl
  · rename_i waiting
    have positive : sink.waiting.size ≠ 0 := by simpa using waiting
    simp [size, runSize, positive]

end Sink

end DeflateAtlas.Puff
