import DeflateAtlas.Progress
import DeflateAtlas.Stream.Buffer
import DeflateAtlas.Stream.Disk

/-!
# Streams that read what they hold

An open stream holds bytes and stands at a place among them.  A stream type is
lawful if its size is the number of these bytes, seeking moves the place, and
reading gives the bytes from the place on; a stream that cannot be read at all
may still be asked for no bytes.  Reading changes nothing but the place.
-/

namespace DeflateAtlas

/-- What there is to see of an open stream. -/
structure StreamView where
  content : Bytes
  place : Nat
  readable : Bool

/-- Streams that read the bytes they hold. -/
class LawfulStream (σ : Type) [ByteStream σ] where
  /-- What there is to see of a stream; nothing once it is closed. -/
  view : σ → Option StreamView
  size_of_open : ∀ {stream seen}, view stream = some seen →
    ByteStream.size stream = .ok seen.content.size stream
  size_of_closed : ∀ {stream : σ}, view stream = none →
    ∃ failure after, ByteStream.size stream = .error failure after
  seek_of_le : ∀ {stream seen place}, view stream = some seen → place ≤ seen.content.size →
    ∃ after, ByteStream.seek place stream = .ok () after ∧
      view after = some { seen with place }
  read_of_le : ∀ {stream seen length}, view stream = some seen →
    (seen.readable = true ∨ length = 0) → seen.place + length ≤ seen.content.size →
    ∃ after, ByteStream.read length stream = .ok (seen.content.slice seen.place length) after ∧
      view after = some { seen with place := seen.place + length }
  read_of_unreadable : ∀ {stream seen length}, view stream = some seen →
    ¬ (seen.readable = true ∨ length = 0) →
    ∃ failure after, ByteStream.read length stream = .error failure after

/-- An open stream holds some bytes, wherever it stands. -/
def Shows {σ : Type} [ByteStream σ] [LawfulStream σ] (stream : σ) (content : Bytes)
    (readable : Bool) : Prop :=
  ∃ place, LawfulStream.view stream = some ⟨content, place, readable⟩

theorem Shows.unique {σ : Type} [ByteStream σ] [LawfulStream σ] {stream : σ}
    {first second : Bytes} {firstReadable secondReadable : Bool}
    (shows : Shows stream first firstReadable) (also : Shows stream second secondReadable) :
    first = second ∧ firstReadable = secondReadable := by
  obtain ⟨place, viewed⟩ := shows
  obtain ⟨otherPlace, again⟩ := also
  rw [viewed] at again
  cases again
  exact ⟨rfl, rfl⟩

/-! ## Buffers -/

namespace BufferStream

/-- What there is to see of a buffer stream. -/
def view (stream : BufferStream) : Option StreamView :=
  if stream.isOpen then some ⟨stream.content, stream.place, true⟩ else none

variable {stream : BufferStream} {seen : StreamView}

theorem view_eq_some_iff :
    stream.view = some seen ↔
      stream.isOpen = true ∧ ⟨stream.content, stream.place, true⟩ = seen := by
  rw [view]
  split
  · rename_i isOpen
    simp [isOpen]
  · rename_i isClosed
    simp [isClosed]

theorem opened_of_open (isOpen : stream.isOpen = true) : opened stream = .ok stream stream := by
  obtain ⟨content, place, isOpen, writable⟩ := stream
  cases isOpen
  rfl

theorem opened_of_closed (isClosed : stream.view = none) :
    opened stream = .error .bufferClosed stream := by
  obtain ⟨content, place, isOpen, writable⟩ := stream
  cases isOpen with
  | true => cases isClosed
  | false => rfl

section Opened

variable (isOpen : stream.isOpen = true)
include isOpen

theorem seek_of_open (target : Nat) :
    ByteStream.seek target stream =
      if stream.content.size < target then
        .error .bufferSeekPastEnd stream
      else
        .ok () { stream with place := target } := by
  change seek target stream = _
  rw [seek, bind_of_ok (opened_of_open isOpen)]
  split <;> rfl

theorem read_of_open (length : Nat) :
    ByteStream.read length stream =
      if stream.content.size < stream.place + length then
        .error .bufferReadPastEnd stream
      else
        .ok (stream.content.slice stream.place length)
          { stream with place := stream.place + length } := by
  change read length stream = _
  rw [read, bind_of_ok (opened_of_open isOpen)]
  split <;> rfl

theorem write_of_open (bytes : Bytes) :
    ByteStream.write bytes stream =
      if stream.writable = true then
        .ok () { stream with
          content := stream.content.overwrite stream.place bytes
          place := stream.place + bytes.size }
      else
        .error .bufferReadOnly stream := by
  change write bytes stream = _
  rw [write, bind_of_ok (opened_of_open isOpen)]
  split <;> rfl

end Opened

end BufferStream

instance : LawfulStream BufferStream where
  view := BufferStream.view
  size_of_open := by
    intro stream seen viewed
    obtain ⟨isOpen, rfl⟩ := BufferStream.view_eq_some_iff.mp viewed
    exact bind_eq_ok_iff.mpr ⟨_, _, BufferStream.opened_of_open isOpen, rfl⟩
  size_of_closed := by
    intro stream viewed
    have closed := BufferStream.opened_of_closed viewed
    exact ⟨_, _, bind_eq_error_iff.mpr (.inl closed)⟩
  seek_of_le := by
    intro stream seen place viewed inside
    obtain ⟨isOpen, rfl⟩ := BufferStream.view_eq_some_iff.mp viewed
    refine ⟨{ stream with place }, ?_, BufferStream.view_eq_some_iff.mpr ⟨isOpen, rfl⟩⟩
    rw [BufferStream.seek_of_open isOpen, if_neg (Nat.not_lt.mpr inside)]
  read_of_le := by
    intro stream seen length viewed _ inside
    obtain ⟨isOpen, rfl⟩ := BufferStream.view_eq_some_iff.mp viewed
    refine ⟨{ stream with place := stream.place + length }, ?_,
      BufferStream.view_eq_some_iff.mpr ⟨isOpen, rfl⟩⟩
    rw [BufferStream.read_of_open isOpen, if_neg (Nat.not_lt.mpr inside)]
  read_of_unreadable := by
    intro stream seen length viewed unreadable
    obtain ⟨-, rfl⟩ := BufferStream.view_eq_some_iff.mp viewed
    exact absurd (.inl rfl) unreadable

/-! ## Files -/

namespace DiskStream

/-- What there is to see of a file stream. -/
def view (stream : DiskStream) : Option StreamView :=
  stream.handle.map fun handle => ⟨stream.content, handle.place, handle.readable⟩

variable {stream : DiskStream} {seen : StreamView}

theorem view_eq_some_iff :
    stream.view = some seen ↔
      ∃ handle, stream.handle = some handle ∧
        ⟨stream.content, handle.place, handle.readable⟩ = seen := by
  rw [view, Option.map_eq_some_iff]

theorem opened_of_some {handle : FileHandle} (isOpen : stream.handle = some handle) :
    opened stream = .ok handle stream := by
  obtain ⟨content, _⟩ := stream
  cases isOpen
  rfl

theorem opened_of_closed (isClosed : stream.view = none) :
    opened stream = .error .fileClosed stream := by
  obtain ⟨content, handle⟩ := stream
  cases handle with
  | some handle => cases isClosed
  | none => rfl

theorem size_of_some {handle : FileHandle} (isOpen : stream.handle = some handle) :
    size stream = .ok stream.content.size stream :=
  bind_eq_ok_iff.mpr ⟨_, _, opened_of_some isOpen, rfl⟩

theorem moveTo_of_some {handle : FileHandle} (isOpen : stream.handle = some handle)
    (place : Nat) :
    moveTo place stream = .ok () { stream with handle := some { handle with place } } := by
  obtain ⟨content, _⟩ := stream
  cases isOpen
  rfl

theorem takeUpTo_of_readable {handle : FileHandle} (isOpen : stream.handle = some handle)
    {length : Nat} (readable : handle.readable = true ∨ length = 0) :
    takeUpTo length stream =
      let bytes := stream.content.slice handle.place length
      .ok bytes { stream with handle := some { handle with place := handle.place + bytes.size } } := by
  refine bind_eq_ok_iff.mpr ⟨_, _, opened_of_some isOpen, ?_⟩
  rw [if_pos readable]
  refine bind_eq_ok_iff.mpr ⟨_, _, rfl, ?_⟩
  exact bind_eq_ok_iff.mpr ⟨_, _, moveTo_of_some isOpen _, rfl⟩

theorem takeUpTo_of_unreadable {handle : FileHandle} (isOpen : stream.handle = some handle)
    {length : Nat} (unreadable : ¬ (handle.readable = true ∨ length = 0)) :
    takeUpTo length stream = .error .fileNotReadable stream := by
  refine bind_eq_error_iff.mpr (.inr ⟨_, _, opened_of_some isOpen, ?_⟩)
  rw [if_neg unreadable]
  rfl

section Opened

variable {handle : FileHandle} (isOpen : stream.handle = some handle)
include isOpen

theorem seek_of_some (target : Nat) :
    ByteStream.seek target stream =
      if stream.content.size < target then
        .error .fileSeekPastEnd stream
      else
        .ok () { stream with handle := some { handle with place := target } } := by
  change seek target stream = _
  rw [seek, bind_of_ok (size_of_some isOpen)]
  split
  · rfl
  · exact moveTo_of_some isOpen target

theorem read_of_some (within : handle.place ≤ stream.content.size) {length : Nat}
    (readable : handle.readable = true ∨ length = 0) :
    ByteStream.read length stream =
      if stream.content.size < handle.place + length then
        .error .fileEnded stream
      else
        .ok (stream.content.slice handle.place length)
          { stream with handle := some { handle with place := handle.place + length } } := by
  change read length stream = _
  rw [read, bind_of_ok (opened_of_some isOpen), bind_of_ok (takeUpTo_of_readable isOpen readable)]
  by_cases beyond : stream.content.size < handle.place + length
  · have few : (stream.content.slice handle.place length).size < length := by
      rw [Bytes.slice, Array.size_extract]
      omega
    rw [if_pos few, if_pos beyond, bind_of_ok (moveTo_of_some rfl _), ← isOpen]
    rfl
  · have size := Bytes.size_slice (Nat.le_of_not_lt beyond)
    rw [size, if_neg (Nat.lt_irrefl length), if_neg beyond]
    rfl

theorem read_of_unreadable {length : Nat} (unreadable : ¬ (handle.readable = true ∨ length = 0)) :
    ByteStream.read length stream = .error .fileNotReadable stream := by
  change read length stream = _
  rw [read, bind_of_ok (opened_of_some isOpen),
    bind_of_error (takeUpTo_of_unreadable isOpen unreadable)]

theorem write_of_some (bytes : Bytes) :
    ByteStream.write bytes stream =
      if ¬ (handle.writable = true ∨ bytes.size = 0) then
        .error .fileNotWritable stream
      else
        .ok () ⟨stream.content.overwrite handle.place bytes,
          some { handle with place := handle.place + bytes.size }⟩ := by
  have none : bytes.isEmpty = true ↔ bytes.size = 0 := Array.isEmpty_iff_size_eq_zero
  change write bytes stream = _
  rw [write, bind_of_ok (opened_of_some isOpen), ite_not]
  simp only [none]
  split
  · obtain ⟨content, _⟩ := stream
    cases isOpen
    rfl
  · rfl

end Opened

end DiskStream

instance : LawfulStream DiskStream where
  view := DiskStream.view
  size_of_open := by
    intro stream seen viewed
    obtain ⟨handle, isOpen, rfl⟩ := DiskStream.view_eq_some_iff.mp viewed
    exact DiskStream.size_of_some isOpen
  size_of_closed := by
    intro stream viewed
    have closed := DiskStream.opened_of_closed viewed
    exact ⟨_, _, bind_eq_error_iff.mpr (.inl closed)⟩
  seek_of_le := by
    intro stream seen place viewed inside
    obtain ⟨handle, isOpen, rfl⟩ := DiskStream.view_eq_some_iff.mp viewed
    refine ⟨{ stream with handle := some { handle with place } }, ?_,
      DiskStream.view_eq_some_iff.mpr ⟨_, rfl, rfl⟩⟩
    rw [DiskStream.seek_of_some isOpen, if_neg (Nat.not_lt.mpr inside)]
  read_of_le := by
    intro stream seen length viewed readable inside
    obtain ⟨handle, isOpen, rfl⟩ := DiskStream.view_eq_some_iff.mp viewed
    refine ⟨{ stream with handle := some { handle with place := handle.place + length } }, ?_,
      DiskStream.view_eq_some_iff.mpr ⟨_, rfl, rfl⟩⟩
    have within := Nat.le_trans (Nat.le_add_right _ length) inside
    rw [DiskStream.read_of_some isOpen within readable, if_neg (Nat.not_lt.mpr inside)]
  read_of_unreadable := by
    intro stream seen length viewed unreadable
    obtain ⟨handle, isOpen, rfl⟩ := DiskStream.view_eq_some_iff.mp viewed
    exact ⟨_, _, DiskStream.read_of_unreadable isOpen unreadable⟩

end DeflateAtlas
