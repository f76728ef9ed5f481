import DeflateAtlas.Locate.Survey

/-!
# The blocks of deflate streams

`deflateBlocks` splits deflate streams, each of which fills a byte extent of a
stream, into their blocks.
-/

namespace DeflateAtlas

/-- The extent ends in a stream of the given size, at an address. -/
def Extent.endsWithin (extent : ByteExtent) (size : Nat) : Bool :=
  extent.stop?.any (· ≤ size)

namespace Survey

variable {τ σ : Type} [Transform τ] [ByteStream σ]

/-- The blocks of the deflate stream that fills an extent.  Bit addresses are numbers of any size
here; in a stream of less than 2^61 bytes all of them fit 64 bits (`deflateBlocksInWords_eq`). -/
def blocksOfExtent (size : Nat) (extent : ByteExtent) : Survey τ σ (List BitExtent) := do
  if ¬ extent.endsWithin size then
    fail .deflateExtentPastEnd
  else
    let data ← readAt extent.offset extent.length
    let transformed ← measure (BitSource.ofBytes data)
    let taken := transformed.source.offset
    if taken ≠ extent.length * 8 then
      fail (.extentNotConsumed extent.offset extent.length taken)
    else
      return transformed.blocks.map (·.shift (extent.offset * 8))

/-- The blocks of deflate streams, each of which fills one of the extents. -/
def deflateBlocks (extents : List ByteExtent) : Survey τ σ (List BitExtent) := do
  let size ← onStream ByteStream.size
  let groups ← extents.mapM (blocksOfExtent size)
  return groups.flatten

end Survey

end DeflateAtlas
