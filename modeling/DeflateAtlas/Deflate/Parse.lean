import DeflateAtlas.Deflate.Token
import DeflateAtlas.Extent

/-!
# Taking deflate data apart

`parse` reads deflate blocks, up to the final one or until fewer than eight
bits are left, and lists the elements they consist of: block headers, padding,
stored bytes, tables as they were sent, tokens, ends of blocks.  The elements
determine every bit of the blocks.

A parse that fails keeps what it has seen: the elements up to the failure, the
blocks that were complete, and the place the source had reached.
-/

namespace DeflateAtlas.Deflate

/-- A part of a deflate block, in the order in which the parts appear. -/
inductive Element
  | header (kind : BlockKind) (last : Bool)
  /-- The bits before the length of a stored block, and its bytes. -/
  | stored (padding : UInt8) (bytes : Bytes)
  /-- The table of a dynamic block. -/
  | table (header : DynamicHeader)
  | token (token : Token)
  | endOfBlock
  /-- The bits after the final block, up to the next byte boundary. -/
  | finalPadding (padding : UInt8)
  deriving DecidableEq, Repr

/-- A parse under way: the place in the data and the elements so far. -/
structure Transcript where
  source : BitSource
  elements : Array Element
  deriving Repr

namespace Transcript

/-- Something done with a transcript; on failure the transcript is kept as it was left. -/
abbrev Action := EStateM Failure Transcript

/-- The number of bits that are still to be parsed. -/
def remaining (transcript : Transcript) : Nat :=
  transcript.source.remaining

/-- Use the source of a transcript. -/
def reading {α : Type} (action : BitSource.Action α) : Action α := fun ⟨source, elements⟩ =>
  match action source with
  | .ok value after => .ok value ⟨after, elements⟩
  | .error failure after => .error failure ⟨after, elements⟩

/-- Add an element to a transcript. -/
def emit (element : Element) : Action Unit := fun ⟨source, elements⟩ =>
  .ok () ⟨source, elements.push element⟩

/-- Something that takes no bits but may fail. -/
def settle {α : Type} (outcome : Except Failure α) : Action α :=
  match outcome with
  | .ok value => pure value
  | .error failure => throw failure

theorem shrinks_reading {α : Type} {action : BitSource.Action α}
    (shrinks : Shrinks BitSource.remaining action) : Shrinks remaining (reading action) := by
  rintro ⟨source, elements⟩ value after ended
  simp only [reading] at ended
  split at ended
  · rename_i run
    cases ended
    exact shrinks run
  · cases ended

theorem consumes_reading {α : Type} {action : BitSource.Action α}
    (consumes : Consumes BitSource.remaining action) : Consumes remaining (reading action) := by
  rintro ⟨source, elements⟩ value after ended
  simp only [reading] at ended
  split at ended
  · rename_i run
    cases ended
    exact consumes run
  · cases ended

theorem shrinks_emit (element : Element) : Shrinks remaining (emit element) := by
  rintro ⟨source, elements⟩ value after ⟨⟩
  exact Nat.le_refl _

theorem shrinks_settle {α : Type} (outcome : Except Failure α) :
    Shrinks remaining (settle outcome) := by
  unfold settle
  split
  · exact Shrinks.pure _
  · exact Shrinks.throw _

end Transcript

open Transcript

/-- Read the length of a stored block, its complement, and the bytes. -/
def readStoredBytes : BitSource.Action Bytes := do
  let length ← BitSource.getBits 16
  let complement ← BitSource.getBits 16
  if length + complement ≠ 0xffff then
    throw .storedLengthMismatch
  else
    let source ← get
    if source.remaining < length * 8 then
      throw .storedPastEnd
    else
      BitSource.getBytes length

/-- Read tokens up to the end of the block. -/
def readTokens (codes : BlockCodes) : Transcript.Action Unit := fun ⟨source, elements⟩ =>
  match _step : readToken codes source with
  | .error failure after => .error failure ⟨after, elements⟩
  | .ok none after => .ok () ⟨after, elements.push .endOfBlock⟩
  | .ok (some token) after => readTokens codes ⟨after, elements.push (.token token)⟩
termination_by transcript => transcript.source.remaining
decreasing_by exact consumes_readToken codes _step

/-- Read what follows the header of a block. -/
def readContent : BlockKind → Transcript.Action Unit
  | .stored => do
      let padding ← reading BitSource.getPadding
      let bytes ← reading readStoredBytes
      emit (.stored padding bytes)
  | .fixed => do
      let codes ← settle BlockCodes.fixed
      readTokens codes
  | .dynamic => do
      let header ← reading DynamicHeader.read
      let codes ← settle (BlockCodes.ofHeader header)
      emit (.table header)
      readTokens codes

/-- Read the rest of a block of which the first bit has been read. -/
def readBlockAfter (last : Bool) : Transcript.Action Bool := do
  let number ← reading (BitSource.getBits 2)
  match BlockKind.ofNumber? number with
  | none => throw .invalidBlockType
  | some kind =>
      emit (.header kind last)
      readContent kind
      if last then
        let padding ← reading BitSource.getPadding
        emit (.finalPadding padding)
      return last

/-- Read a block and say whether it is the final one; the final block owns the bits up to the
next byte boundary. -/
def readBlock : Transcript.Action Bool := do
  let last ← reading BitSource.getBit
  readBlockAfter last

theorem shrinks_readStoredBytes : Shrinks BitSource.remaining readStoredBytes :=
  (BitSource.shrinks_getBits 16).bind fun _ =>
    (BitSource.shrinks_getBits 16).bind fun _ =>
      Shrinks.ite (Shrinks.throw _) <|
        Shrinks.get.bind fun _ =>
          Shrinks.ite (Shrinks.throw _) (BitSource.shrinks_getBytes _)

theorem shrinks_readTokens (codes : BlockCodes) :
    Shrinks Transcript.remaining (readTokens codes) := by
  intro before value after ended
  fun_induction readTokens codes before with
  | case1 => cases ended
  | case2 source elements middle step =>
      cases ended
      exact (consumes_readToken codes).shrinks step
  | case3 source elements token middle step ih =>
      exact Nat.le_trans (ih ended) ((consumes_readToken codes).shrinks step)

theorem shrinks_readContent (kind : BlockKind) :
    Shrinks Transcript.remaining (readContent kind) := by
  cases kind with
  | stored =>
      exact (shrinks_reading BitSource.shrinks_getPadding).bind fun _ =>
        (shrinks_reading shrinks_readStoredBytes).bind fun _ => shrinks_emit _
  | fixed => exact (shrinks_settle _).bind fun codes => shrinks_readTokens codes
  | dynamic =>
      exact (shrinks_reading DynamicHeader.shrinks_read).bind fun _ =>
        (shrinks_settle _).bind fun codes =>
          (shrinks_emit _).bind fun _ => shrinks_readTokens codes

theorem shrinks_readBlockAfter (last : Bool) :
    Shrinks Transcript.remaining (readBlockAfter last) := by
  refine (shrinks_reading (BitSource.shrinks_getBits 2)).bind fun number => ?_
  split
  · exact Shrinks.throw _
  · refine (shrinks_emit _).bind fun _ => (shrinks_readContent _).bind fun _ => ?_
    exact Shrinks.ite
      ((shrinks_reading BitSource.shrinks_getPadding).bind fun _ =>
        (shrinks_emit _).bind fun _ => Shrinks.pure _)
      (Shrinks.pure _)

/-- Every block takes at least one bit, so a loop over blocks ends. -/
theorem consumes_readBlock : Consumes Transcript.remaining readBlock :=
  (consumes_reading BitSource.consumes_getBit).bind shrinks_readBlockAfter

/-- Where a block lies in the data, and whether it is the final one. -/
structure BlockSpan where
  extent : BitExtent
  last : Bool
  deriving DecidableEq, Repr

/-- A parse that has come to its end. -/
structure Parse where
  /-- The failure that ended the parse, if any. -/
  result : Except Failure Unit
  /-- The complete blocks. -/
  blocks : Array BlockSpan
  transcript : Transcript

/-- Go on with a parse at the start of a block, after some complete `blocks`. -/
def parseBlocks (blocks : Array BlockSpan) (before : Transcript) : Parse :=
  if before.remaining < 8 then
    ⟨.ok (), blocks, before⟩
  else
    let start := before.source.offset
    match _step : readBlock before with
    | .error failure after => ⟨.error failure, blocks, after⟩
    | .ok last after =>
        let span := ⟨⟨start, after.source.offset - start⟩, last⟩
        if last then
          ⟨.ok (), blocks.push span, after⟩
        else
          parseBlocks (blocks.push span) after
termination_by before.remaining
decreasing_by exact consumes_readBlock _step

/-- Take deflate data apart, from the place of a source on. -/
def parse (source : BitSource) : Parse :=
  parseBlocks #[] ⟨source, #[]⟩

end DeflateAtlas.Deflate
