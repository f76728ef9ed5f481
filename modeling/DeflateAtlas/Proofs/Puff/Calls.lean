import DeflateAtlas.Proofs.Puff.Records
import DeflateAtlas.Transform

/-!
# Calls on a sink

A sink may be asked, in any order, to insert an element or to write the literals
that wait.  Two things hold after every sequence of such calls.  Fewer literals
wait than fill a run.  And a sink that only counts tells the same size as one
that appends to a buffer: how many bytes have been appended, and how many the
waiting literals would add.  So the size of a puff can be learned without
writing it, wherever the encoder stops.
-/

namespace DeflateAtlas.Puff

open Deflate

/-- A call on a sink. -/
inductive Call (α : Type)
  | insert (item : α)
  | flush
  deriving DecidableEq

namespace Call

variable {α β : Type}

protected def map (f : α → β) : Call α → Call β
  | .insert item => .insert (f item)
  | .flush => .flush

/-- What a call inserts. -/
def item? : Call α → Option α
  | .insert item => some item
  | .flush => none

end Call

/-- What calls insert, in order. -/
def inserted {α : Type} (calls : List (Call α)) : List α :=
  calls.filterMap Call.item?

namespace Sink

/-- The sink after a call. -/
def perform (sink : Sink) : Call Element → Sink
  | .insert element => sink.insert element
  | .flush => sink.flush

/-- The sink after calls. -/
def serve (sink : Sink) (calls : List (Call Element)) : Sink :=
  calls.foldl perform sink

/-- What holds of a sink and of what each call leaves holds of what calls leave. -/
theorem serve_induction {holds : Sink → Prop} {sink : Sink} (start : holds sink)
    (step : ∀ before call, holds before → holds (before.perform call))
    (calls : List (Call Element)) : holds (sink.serve calls) := by
  induction calls generalizing sink with
  | nil => exact start
  | cons call calls ih => exact ih (step sink call start)

/-! ## Room -/

/-- The sink can take another literal, as it can after every call. -/
def HasRoom (sink : Sink) : Prop :=
  sink.waiting.size < maxRun

instance (sink : Sink) : Decidable sink.HasRoom :=
  inferInstanceAs (Decidable (_ < _))

theorem hasRoom_of_nothing {sink : Sink} (nothing : sink.waiting = #[]) : sink.HasRoom := by
  rw [HasRoom, nothing]
  decide

theorem hasRoom_flush (sink : Sink) : sink.flush.HasRoom :=
  hasRoom_of_nothing (waiting_flush sink)

theorem HasRoom.insert {sink : Sink} (room : sink.HasRoom) (element : Element) :
    (sink.insert element).HasRoom := by
  by_cases literal : ∃ byte, element = .token (.literal byte)
  · obtain ⟨byte, rfl⟩ := literal
    change (sink.insertLiteral byte).HasRoom
    rw [insertLiteral_eq]
    split
    · exact hasRoom_flush _
    · rename_i notFull
      rw [HasRoom] at room
      rw [Array.size_push] at notFull
      rw [HasRoom, Array.size_push]
      omega
  · rw [insert_of_other (not_exists.mp literal)]
    exact hasRoom_of_nothing (waiting_append_of_nothing (waiting_flush sink) _)

theorem HasRoom.serve {sink : Sink} (room : sink.HasRoom) (calls : List (Call Element)) :
    (sink.serve calls).HasRoom := by
  refine serve_induction room (fun before call room => ?_) calls
  cases call with
  | insert element => exact room.insert element
  | flush => exact hasRoom_flush before

/-! ## Sizes -/

theorem flush_of_something {sink : Sink} (some : sink.waiting ≠ #[]) :
    sink.flush = sink.emptied.append (literalRun sink.waiting) := by
  rw [flush, if_neg (by rwa [Array.isEmpty_iff])]
  rfl

theorem size_eq_of_appended {sink : Sink} {records : Bytes} (size : records.size = sink.written) :
    sink.size = records.size + if sink.waiting.size = 0 then 0 else sink.waiting.size + 1 := by
  rw [Sink.size, runSize, size]

/-- A sink that appends to a buffer, and one that has counted the same bytes. -/
structure Tallies (buffer : Bytes) (writing counting : Sink) : Prop where
  appended : ∃ records, writing.output = some (buffer ++ records) ∧
    records.size = writing.written
  written : counting.written = writing.written
  waiting : counting.waiting = writing.waiting

namespace Tallies

variable {buffer : Bytes} {writing counting : Sink}

theorem start (buffer : Bytes) : Tallies buffer (appending buffer) measuring :=
  ⟨⟨#[], congrArg some Array.append_empty.symm, rfl⟩, rfl, rfl⟩

protected theorem size (tallies : Tallies buffer writing counting) :
    counting.size = writing.size := by
  rw [Sink.size, Sink.size, tallies.written, tallies.waiting]

protected theorem append (tallies : Tallies buffer writing counting) (bytes : Bytes) :
    Tallies buffer (writing.append bytes) (counting.append bytes) := by
  obtain ⟨records, output, size⟩ := tallies.appended
  refine ⟨⟨records ++ bytes, ?_, ?_⟩, ?_, ?_⟩
  · rw [output_append output, Array.append_assoc]
  · rw [Array.size_append, size, written_append]
  · rw [written_append, written_append, tallies.written]
  · rw [waiting_append, waiting_append, tallies.waiting]

/-- The two sinks keep their literals apart from what they have appended or counted. -/
theorem withWaiting (tallies : Tallies buffer writing counting) (waiting : Bytes) :
    Tallies buffer { writing with waiting } { counting with waiting } :=
  ⟨tallies.appended, tallies.written, rfl⟩

protected theorem flush (tallies : Tallies buffer writing counting) :
    Tallies buffer writing.flush counting.flush := by
  by_cases nothing : writing.waiting = #[]
  · rw [flush_of_nothing nothing, flush_of_nothing (tallies.waiting.trans nothing)]
    exact tallies
  · rw [flush_of_something nothing, flush_of_something (by rwa [tallies.waiting]),
      tallies.waiting]
    exact (tallies.withWaiting #[]).append _

protected theorem insert (tallies : Tallies buffer writing counting) (element : Element) :
    Tallies buffer (writing.insert element) (counting.insert element) := by
  by_cases literal : ∃ byte, element = .token (.literal byte)
  · obtain ⟨byte, rfl⟩ := literal
    change Tallies buffer (writing.insertLiteral byte) (counting.insertLiteral byte)
    rw [insertLiteral_eq, insertLiteral_eq, tallies.waiting]
    split
    · exact (tallies.withWaiting _).flush
    · exact tallies.withWaiting _
  · rw [insert_of_other (not_exists.mp literal), insert_of_other (not_exists.mp literal)]
    exact tallies.flush.append _

theorem perform (tallies : Tallies buffer writing counting) (call : Call Element) :
    Tallies buffer (writing.perform call) (counting.perform call) := by
  cases call with
  | insert element => exact tallies.insert element
  | flush => exact tallies.flush

protected theorem serve (tallies : Tallies buffer writing counting)
    (calls : List (Call Element)) :
    Tallies buffer (writing.serve calls) (counting.serve calls) := by
  induction calls generalizing writing counting with
  | nil => exact tallies
  | cons call calls ih => exact ih (tallies.perform call)

theorem insertAll (tallies : Tallies buffer writing counting) (elements : Array Element) :
    Tallies buffer (writing.insertAll elements) (counting.insertAll elements) := by
  rw [Sink.insertAll, Sink.insertAll, ← Array.foldl_toList, ← Array.foldl_toList]
  induction elements.toList generalizing writing counting with
  | nil => exact tallies
  | cons element elements ih => exact ih (tallies.insert element)

theorem size_eq (tallies : Tallies buffer writing counting) :
    ∃ records, writing.output = some (buffer ++ records) ∧
      writing.size =
        records.size + if writing.waiting.size = 0 then 0 else writing.waiting.size + 1 := by
  obtain ⟨records, output, size⟩ := tallies.appended
  exact ⟨records, output, size_eq_of_appended size⟩

/-- Once nothing waits, as many bytes have been appended as the size says. -/
theorem size_eq_flush (tallies : Tallies buffer writing counting) :
    ∃ records, writing.flush.output = some (buffer ++ records) ∧ records.size = writing.size := by
  obtain ⟨records, output, size⟩ := tallies.flush.size_eq
  rw [waiting_flush, size_flush] at size
  exact ⟨records, output, size.symm⟩

theorem encode (tallies : Tallies buffer writing counting) (source : BitSource) :
    Tallies buffer (PuffEncoder.encode source writing).sink
      (PuffEncoder.encode source counting).sink := by
  simp only [PuffEncoder.encode]
  cases (parse source).result with
  | ok => exact (tallies.insertAll _).flush
  | error failure => exact tallies.insertAll _

end Tallies

/-- A sink that counts tells after any calls the size of what a sink that appends has appended and
will append, and the encoder does the same with either, up to where it stops. -/
theorem counting_eq_writing (buffer : Bytes) (calls : List (Call Element)) :
    let writing := (appending buffer).serve calls
    let counting := measuring.serve calls
    counting.size = writing.size ∧
      (∃ records, writing.output = some (buffer ++ records) ∧
        writing.size =
          records.size + if writing.waiting.size = 0 then 0 else writing.waiting.size + 1) ∧
      writing.flush.size = writing.size ∧
      counting.flush.size = counting.size ∧
      (∃ records, writing.flush.output = some (buffer ++ records) ∧
        records.size = writing.size) ∧
      ∀ source,
        let written := PuffEncoder.encode source writing
        let counted := PuffEncoder.encode source counting
        counted.result = written.result ∧ counted.blocks = written.blocks ∧
          counted.source = written.source ∧ counted.log = written.log ∧
          counted.sink.size = written.sink.size ∧
          ∃ records, written.sink.output = some (buffer ++ records) ∧
            counted.sink.size = records.size +
              if written.sink.waiting.size = 0 then 0 else written.sink.waiting.size + 1 := by
  intro writing counting
  have tallies : Tallies buffer writing counting := (Tallies.start buffer).serve calls
  refine ⟨tallies.size, tallies.size_eq, size_flush writing, size_flush counting,
    tallies.size_eq_flush, fun source => ?_⟩
  have after := tallies.encode source
  refine ⟨rfl, rfl, rfl, rfl, after.size, ?_⟩
  rw [after.size]
  exact after.size_eq

end Sink

end DeflateAtlas.Puff
