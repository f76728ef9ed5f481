import DeflateAtlas.Log
import DeflateAtlas.Puff.Sink

/-!
# Transforms

A transform takes deflate data from a source and writes its puff.  The source
stands at the start of a block; a transform that succeeds has taken whole
blocks and left nothing waiting in the sink.  Transforms may keep a state from
call to call.  `PuffEncoder` is the transform proper: it takes blocks up to the
final one, or until fewer than eight bits are left, since those cannot hold
another block.
-/

namespace DeflateAtlas

/-- What a call of a transform leaves behind. -/
structure Transformed where
  /-- The failure that ended the call, if any. -/
  result : Except Failure Unit
  source : BitSource
  sink : Puff.Sink
  /-- The blocks that were taken, in bits from the start of the data of the source. -/
  blocks : List BitExtent
  /-- What was logged. -/
  log : Log

/-- A way to turn deflate data into puffs, with a state of type `τ`. -/
class Transform (τ : Type) where
  /-- Take deflate data from a source and write its puff. -/
  run : τ → BitSource → Puff.Sink → Transformed × τ

/-- The transform from deflate data to puffs; it keeps no state. -/
structure PuffEncoder where
  deriving DecidableEq, Repr

/-- What is logged after each block. -/
def Deflate.BlockSpan.event (span : Deflate.BlockSpan) : Event :=
  ⟨.trace, s!"deflate block at bit {span.extent.offset} to {span.extent.stop} (last={span.last})"⟩

namespace PuffEncoder

/-- Take deflate blocks from a source and write their puff. -/
def encode (source : BitSource) (sink : Puff.Sink) : Transformed :=
  let ⟨result, blocks, transcript⟩ := Deflate.parse source
  let inserted := sink.insertAll transcript.elements
  { result
    source := transcript.source
    sink := match result with
      | .ok () => inserted.flush
      | .error _ => inserted
    blocks := blocks.toList.map (·.extent)
    log := blocks.toList.map (·.event) }

instance : Transform PuffEncoder where
  run encoder source sink := (encode source sink, encoder)

end PuffEncoder

end DeflateAtlas
