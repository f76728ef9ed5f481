import DeflateAtlas.Stream.Basic
import DeflateAtlas.Transform

/-!
# Surveys

Locating works on a stream with the help of a transform and leaves a log.  A
survey is such a computation: it may fail, and stream, transform and log are
kept as they were left when it does.
-/

namespace DeflateAtlas

/-- What a survey works with. -/
structure Workbench (τ σ : Type) where
  transform : τ
  stream : σ
  log : Log

/-- A computation over a transform, a stream and a log. -/
abbrev Survey (τ σ : Type) := EStateM Failure (Workbench τ σ)

namespace Survey

variable {τ σ α : Type}

/-- A workbench with an empty log. -/
def start (transform : τ) (stream : σ) : Workbench τ σ :=
  ⟨transform, stream, []⟩

/-- Add events to the log. -/
def note (events : Log) : Survey τ σ Unit :=
  modify fun bench => { bench with log := bench.log ++ events }

/-- Fail, with what is logged for this failure. -/
def fail (failure : Failure) : Survey τ σ α := do
  note failure.events
  throw failure

/-- Do something with the stream. -/
def onStream (action : StreamAction σ α) : Survey τ σ α := fun ⟨transform, stream, log⟩ =>
  match action stream with
  | .ok value after => .ok value ⟨transform, after, log⟩
  | .error failure after => .error failure ⟨transform, after, log⟩

/-- Read `length` bytes of the stream from a place on. -/
def readAt [ByteStream σ] (place length : Nat) : Survey τ σ Bytes := do
  onStream (ByteStream.seek place)
  onStream (ByteStream.read length)

/-- Let the transform count the puff of the deflate data at a source. -/
def measure [Transform τ] (source : BitSource) : Survey τ σ Transformed :=
  fun ⟨transform, stream, log⟩ =>
    let (transformed, after) := Transform.run transform source Puff.Sink.measuring
    match transformed.result with
    | .ok () => .ok transformed ⟨after, stream, log ++ transformed.log⟩
    | .error failure => .error failure ⟨after, stream, log ++ transformed.log⟩

/-- Do something with a source that only this survey sees. -/
def onSource (source : BitSource) (action : BitSource.Action α) : Survey τ σ (α × BitSource) :=
  match action source with
  | .ok value after => return (value, after)
  | .error failure _ => throw failure

/-- The outcome of a survey and the log it leaves. -/
def outcome (survey : Survey τ σ α) (bench : Workbench τ σ) : Except Failure α × Log :=
  match survey bench with
  | .ok value after => (.ok value, after.log)
  | .error failure after => (.error failure, after.log)

end Survey

end DeflateAtlas
