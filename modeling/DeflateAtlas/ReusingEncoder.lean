import DeflateAtlas.Following
import DeflateAtlas.Transform

/-!
# An encoder that keeps its buffer

`PuffEncoder` collects the bytes of each stored block in a new buffer.
`ReusingEncoder` has one buffer for this and keeps it from block to block and from
call to call, with whatever the last block or a failed call left in it.  The
buffer is cleared when the lengths of a stored block have been checked, so its
content never matters: each action here does what the action of the same name in
`Deflate` does, but for the buffer.
-/

namespace DeflateAtlas

open Deflate

/-- The transform from deflate data to puffs, with its buffer for stored bytes. -/
structure ReusingEncoder where
  buffer : Bytes
  deriving DecidableEq, Repr

namespace ReusingEncoder

/-- A parse under way, and the buffer. -/
structure Desk where
  transcript : Transcript
  buffer : Bytes

/-- Something done with a transcript and a buffer. -/
abbrev Action := EStateM Failure Desk

/-- Do something that does not need the buffer. -/
def onTranscript {α : Type} (action : Transcript.Action α) : Action α := fun ⟨transcript, buffer⟩ =>
  match action transcript with
  | .ok value after => .ok value ⟨after, buffer⟩
  | .error failure after => .error failure ⟨after, buffer⟩

/-- Use the source of the transcript. -/
def reading {α : Type} (action : BitSource.Action α) : Action α :=
  onTranscript (Transcript.reading action)

/-- Empty the buffer. -/
def clear : Action Unit :=
  modify fun desk => { desk with buffer := #[] }

/-- Add `length` bytes of the data to the buffer, and give what it holds then. -/
def collect : (length : Nat) → Action Bytes
  | 0 => do
      let desk ← get
      return desk.buffer
  | length + 1 => do
      let byte ← reading BitSource.getByte
      modify fun desk => { desk with buffer := desk.buffer.push byte }
      collect length

/-- Read the length of a stored block, its complement, and the bytes. -/
def readStoredBytes : Action Bytes := do
  let length ← reading (BitSource.getBits 16)
  let complement ← reading (BitSource.getBits 16)
  if length + complement ≠ 0xffff then
    throw .storedLengthMismatch
  else
    let desk ← get
    if desk.transcript.remaining < length * 8 then
      throw .storedPastEnd
    else
      clear
      collect length

/-- Read what follows the header of a block. -/
def readContent : BlockKind → Action Unit
  | .stored => do
      let padding ← reading BitSource.getPadding
      let bytes ← readStoredBytes
      onTranscript (Transcript.emit (.stored padding bytes))
  | kind => onTranscript (Deflate.readContent kind)

/-- Read the rest of a block of which the first bit has been read. -/
def readBlockAfter (last : Bool) : Action Bool := do
  let number ← reading (BitSource.getBits 2)
  match BlockKind.ofNumber? number with
  | none => throw .invalidBlockType
  | some kind =>
      onTranscript (Transcript.emit (.header kind last))
      readContent kind
      if last then
        let padding ← reading BitSource.getPadding
        onTranscript (Transcript.emit (.finalPadding padding))
      return last

/-- Read a block and say whether it is the final one. -/
def readBlock : Action Bool := do
  let last ← reading BitSource.getBit
  readBlockAfter last

/-! ## The buffer does not matter -/

/-- The transcript lies on the desk. -/
def Carries (desk : Desk) (transcript : Transcript) : Prop :=
  desk.transcript = transcript

/-- An action does what another one does without a buffer, whatever is in the buffer. -/
abbrev Ignores {α : Type} (action : Action α) (plain : Transcript.Action α) : Prop :=
  Follows Carries Carries Carries (fun _ => False) action plain

theorem ignores_onTranscript {α : Type} (action : Transcript.Action α) :
    Ignores (onTranscript action) action := by
  rintro ⟨transcript, buffer⟩ _ rfl
  simp only [onTranscript]
  cases action transcript with
  | ok value after => exact .ok value rfl
  | error failure after => exact .error failure rfl

theorem ignores_reading {α : Type} (action : BitSource.Action α) :
    Ignores (reading action) (Transcript.reading action) :=
  ignores_onTranscript _

theorem ignores_throw {α : Type} (failure : Failure) :
    Ignores (throw failure : Action α) (throw failure) :=
  Follows.throw failure fun _ _ same => same

theorem ignores_collect (length : Nat) (transcript : Transcript) (buffer : Bytes) :
    Agree Carries Carries (fun _ => False) (collect length ⟨transcript, buffer⟩)
      (Transcript.reading (BitSource.getBytesOnto length buffer) transcript) := by
  induction length generalizing transcript buffer with
  | zero => exact .ok buffer rfl
  | succ length ih =>
      obtain ⟨source, elements⟩ := transcript
      simp only [collect, reading, onTranscript, Transcript.reading, BitSource.getBytesOnto, bind,
        EStateM.bind]
      cases run : BitSource.getByte source with
      | ok byte after => exact ih ⟨after, elements⟩ (buffer.push byte)
      | error failure after => exact .error failure rfl

/-- Using a source step by step. -/
theorem reading_bind {α β : Type} (action : BitSource.Action α) (next : α → BitSource.Action β) :
    Transcript.reading (action >>= next) =
      Transcript.reading action >>= fun value => Transcript.reading (next value) := by
  funext ⟨source, elements⟩
  simp only [Transcript.reading, bind, EStateM.bind]
  cases action source <;> rfl

theorem ignores_readStoredBytes :
    Ignores readStoredBytes (Transcript.reading Deflate.readStoredBytes) := by
  rw [readStoredBytes, Deflate.readStoredBytes, reading_bind]
  refine (ignores_reading _).bind fun length => ?_
  rw [reading_bind]
  refine (ignores_reading _).bind fun complement => ?_
  split
  · exact ignores_throw _
  · rintro ⟨⟨source, elements⟩, buffer⟩ _ rfl
    change Agree _ _ _
      ((if source.remaining < length * 8 then throw .storedPastEnd
        else (do clear; collect length) : Action Bytes) ⟨⟨source, elements⟩, buffer⟩)
      (Transcript.reading
        (if source.remaining < length * 8 then throw .storedPastEnd
          else BitSource.getBytes length) ⟨source, elements⟩)
    split
    · exact .error _ rfl
    · exact ignores_collect length ⟨source, elements⟩ #[]

theorem ignores_readContent (kind : BlockKind) :
    Ignores (readContent kind) (Deflate.readContent kind) := by
  cases kind with
  | stored =>
      rw [readContent, Deflate.readContent]
      exact (ignores_reading _).bind fun _ =>
        ignores_readStoredBytes.bind fun _ => ignores_onTranscript _
  | fixed =>
      rw [readContent]
      · exact ignores_onTranscript _
      · nofun
  | dynamic =>
      rw [readContent]
      · exact ignores_onTranscript _
      · nofun

theorem ignores_readBlockAfter (last : Bool) :
    Ignores (readBlockAfter last) (Deflate.readBlockAfter last) := by
  refine (ignores_reading _).bind fun number => ?_
  cases BlockKind.ofNumber? number with
  | none => exact ignores_throw _
  | some kind =>
      refine (ignores_onTranscript _).bind fun _ => (ignores_readContent _).bind fun _ => ?_
      exact Follows.ite
        ((ignores_reading _).bind fun _ => (ignores_onTranscript _).bind fun _ => Follows.pure _)
        (Follows.pure _)

theorem ignores_readBlock : Ignores readBlock Deflate.readBlock :=
  (ignores_onTranscript _).bind ignores_readBlockAfter

/-- The number of bits that are still to be parsed. -/
def Desk.remaining (desk : Desk) : Nat :=
  desk.transcript.remaining

/-- Every block takes at least one bit, so a loop over blocks ends. -/
theorem consumes_readBlock : Consumes Desk.remaining readBlock := by
  intro before last after ended
  obtain ⟨transcript, run, same⟩ := (ignores_readBlock rfl).eq_ok ended
  rw [Desk.remaining, same]
  exact Deflate.consumes_readBlock run

/-! ## Encoding -/

/-- Go on with a parse at the start of a block, after some complete `blocks`. -/
def parseBlocks (blocks : Array BlockSpan) (before : Desk) : Parse × Bytes :=
  if before.remaining < 8 then
    (⟨.ok (), blocks, before.transcript⟩, before.buffer)
  else
    let start := before.transcript.source.offset
    match _step : readBlock before with
    | .error failure after => (⟨.error failure, blocks, after.transcript⟩, after.buffer)
    | .ok last after =>
        let span := ⟨⟨start, after.transcript.source.offset - start⟩, last⟩
        if last then
          (⟨.ok (), blocks.push span, after.transcript⟩, after.buffer)
        else
          parseBlocks (blocks.push span) after
termination_by before.remaining
decreasing_by exact consumes_readBlock _step

/-- Take deflate blocks from a source and write their puff. -/
def encode (encoder : ReusingEncoder) (source : BitSource) (sink : Puff.Sink) :
    Transformed × ReusingEncoder :=
  let ⟨⟨result, blocks, transcript⟩, buffer⟩ := parseBlocks #[] ⟨⟨source, #[]⟩, encoder.buffer⟩
  let inserted := sink.insertAll transcript.elements
  ({  result
      source := transcript.source
      sink := match result with
        | .ok () => inserted.flush
        | .error _ => inserted
      blocks := blocks.toList.map (·.extent)
      log := blocks.toList.map (·.event) }, ⟨buffer⟩)

instance : Transform ReusingEncoder where
  run := encode

end ReusingEncoder

end DeflateAtlas
