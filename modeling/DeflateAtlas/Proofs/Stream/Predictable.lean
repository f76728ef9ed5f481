import DeflateAtlas.Proofs.Stream.Lawful

/-!
# Streams whose refusals are predictable

What a lawful stream gives depends on what it shows; a predictable one also fails in
a way that depends on nothing else.  So two predictable streams that hold the same
bytes and stand at the same place cannot be told apart by reading.  Between streams of
different types the failures differ; uniform streams at least agree on their kinds.
-/

namespace DeflateAtlas

/-- The bytes that are asked for are there and may be read. -/
def StreamView.Grants (seen : StreamView) (length : Nat) : Prop :=
  (seen.readable = true ∨ length = 0) ∧ seen.place + length ≤ seen.content.size

/-- Streams that refuse to read in a way that depends only on what they show. -/
class PredictableStream (σ : Type) [ByteStream σ] [LawfulStream σ] where
  /-- How a read fails. -/
  refusal : StreamView → (length : Nat) → Failure
  read_of_refused : ∀ {stream : σ} {seen length}, LawfulStream.view stream = some seen →
    seen.place ≤ seen.content.size → ¬ seen.Grants length →
    ∃ after, ByteStream.read length stream = .error (refusal seen length) after

theorem BufferStream.read_of_refused {stream : BufferStream} {seen : StreamView} {length : Nat}
    (viewed : LawfulStream.view stream = some seen) (refused : ¬ seen.Grants length) :
    ∃ after, ByteStream.read length stream = .error .bufferReadPastEnd after := by
  obtain ⟨isOpen, rfl⟩ := BufferStream.view_eq_some_iff.mp viewed
  have beyond : stream.content.size < stream.place + length := by
    apply Nat.lt_of_not_le
    exact fun inside => refused ⟨.inl rfl, inside⟩
  exact ⟨stream, by rw [read_of_open isOpen, if_pos beyond]⟩

instance : PredictableStream BufferStream where
  refusal _ _ := .bufferReadPastEnd
  read_of_refused viewed _ refused := BufferStream.read_of_refused viewed refused

namespace DiskStream

/-- How a file refuses to be read: it has no more bytes, or may not be read at all. -/
def refusal (seen : StreamView) (length : Nat) : Failure :=
  if seen.readable = true ∨ length = 0 then .fileEnded else .fileNotReadable

theorem read_of_refused {stream : DiskStream} {seen : StreamView} {length : Nat}
    (viewed : LawfulStream.view stream = some seen) (known : seen.place ≤ seen.content.size)
    (refused : ¬ seen.Grants length) :
    ∃ after, ByteStream.read length stream = .error (refusal seen length) after := by
  obtain ⟨handle, isOpen, rfl⟩ := view_eq_some_iff.mp viewed
  dsimp only at known
  rw [refusal]
  by_cases readable : handle.readable = true ∨ length = 0
  · have beyond : stream.content.size < handle.place + length := by
      apply Nat.lt_of_not_le
      exact fun inside => refused ⟨readable, inside⟩
    rw [if_pos readable]
    exact ⟨stream, by rw [read_of_some isOpen known readable, if_pos beyond]⟩
  · rw [if_neg readable]
    exact ⟨stream, read_of_unreadable isOpen readable⟩

end DiskStream

instance : PredictableStream DiskStream where
  refusal := DiskStream.refusal
  read_of_refused := DiskStream.read_of_refused

/-- The kind of failure of a read that is not granted. -/
def StreamView.refusalKind (seen : StreamView) (length : Nat) : FailureKind :=
  if seen.readable = true ∨ length = 0 then .shortRead else .osError

/-- Streams that tell a caller whether they may not be read or have too few bytes. -/
class UniformStream (σ : Type) [ByteStream σ] [LawfulStream σ] [PredictableStream σ] : Prop where
  kind_refusal : ∀ {stream : σ} {seen}, LawfulStream.view stream = some seen → ∀ length,
    (PredictableStream.refusal σ seen length).kind = seen.refusalKind length

instance : UniformStream BufferStream where
  kind_refusal viewed length := by
    obtain ⟨-, rfl⟩ := BufferStream.view_eq_some_iff.mp viewed
    exact (if_pos (.inl rfl)).symm

instance : UniformStream DiskStream where
  kind_refusal {_ seen} _ length := by
    change (DiskStream.refusal seen length).kind = _
    rw [DiskStream.refusal, StreamView.refusalKind]
    split
    · rfl
    · rfl

end DeflateAtlas
