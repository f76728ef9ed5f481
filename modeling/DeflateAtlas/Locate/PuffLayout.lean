import DeflateAtlas.Locate.Survey

/-!
# Where puffs go

The puff stream of a stream is the stream with the deflate data in it replaced
by its puffs.  Deflate data is located by the bit but a puff is whole bytes, so
a puff takes the place of the bytes that its data has to itself:

* a byte that the data covers in part stays in the puff stream, before the puff
  if it holds the first bits and behind the puff if it holds the last, although
  the puff spells these bits too;
* only a byte in which deflate data ends just where other data begins is left
  out: the two share it, and the second puff follows the first at once.

`Placement` is this arithmetic for one puff and `puffLayout` the survey
that finds the sizes it needs.
-/

namespace DeflateAtlas

/-- Where the puffs of a stream go. -/
structure PuffLayout where
  puffs : List ByteExtent
  /-- The size of the whole puff stream. -/
  size : Nat
  deriving DecidableEq, Repr

/-- How the puffs so far have been laid out. -/
structure Frontier where
  /-- How much longer the puffs so far are than the bytes they replace, possibly negative. -/
  drift : Int
  /-- The deflate data before the next one. -/
  previous : Option BitExtent
  deriving DecidableEq, Repr

/-- The frontier before the first puff. -/
def Frontier.start : Frontier :=
  ⟨0, none⟩

/-- Where one puff goes. -/
structure Placement where
  /-- The number of bytes that the data shares with the data before it.  These are left out, so
  that the puff begins as many bytes earlier. -/
  gap : Int
  /-- The first byte that belongs to the deflate data alone. -/
  firstWholeByte : Int
  /-- The number of bytes that belong to the deflate data alone; -1 if it lies inside a byte. -/
  wholeBytes : Int
  /-- Where the puff begins. -/
  puffOffset : Int
  /-- The drift after the puff. -/
  drift : Int
  deriving DecidableEq, Repr

/-- The deflate data begins inside a byte in which the data before it ends. -/
def Frontier.sharesByte (frontier : Frontier) (deflate : BitExtent) : Bool :=
  frontier.previous.any fun previous =>
    previous.stop == deflate.offset && deflate.offset % 8 != 0

/-- Where a puff of the given size goes. -/
def Frontier.place (frontier : Frontier) (deflate : BitExtent) (puffSize : Nat) : Placement :=
  let gap : Int := if frontier.sharesByte deflate then 1 else 0
  let firstWholeByte : Int := bytesForBits deflate.offset
  let wholeBytes := ((deflate.stop / 8 : Nat) : Int) - firstWholeByte
  { gap, firstWholeByte, wholeBytes
    puffOffset := firstWholeByte - gap + frontier.drift
    drift := frontier.drift + (puffSize - wholeBytes - gap) }

/-- The first byte after a bit extent, if the stream is at least that long. -/
def Extent.byteStopWithin? (extent : BitExtent) (size : Nat) : Option Nat :=
  (extent.stop?.map bytesForBits).filter (· ≤ size)

namespace Survey

variable {τ σ : Type} [Transform τ] [ByteStream σ]

/-- The size of the puff of the deflate data in a bit extent that ends before byte `stop`. -/
def puffSizeOfExtent (deflate : BitExtent) (stop : Nat) : Survey τ σ Nat := do
  let start := deflate.offset / 8
  let data ← readAt start (stop - start)
  let (_, source) ← onSource (BitSource.ofBytes data) (BitSource.skip (deflate.offset % 8))
  let transformed ← measure source
  let touched := transformed.source.bytesTouched
  if touched ≠ data.size then
    fail (.extentEndsElsewhere deflate.offset deflate.length touched data.size)
  else
    return transformed.sink.size

/-- Lay out the next puff. -/
def placePuff (size : Nat) (frontier : Frontier) (deflate : BitExtent) :
    Survey τ σ (ByteExtent × Frontier) := do
  match deflate.byteStopWithin? size with
  | none => fail .deflateExtentPastEnd
  | some stop =>
      if frontier.previous.any (deflate.offset < ·.stop) then
        fail .deflatesOverlap
      else
        let puffSize ← puffSizeOfExtent deflate stop
        let placement := frontier.place deflate puffSize
        if placement.puffOffset < 0 then
          fail .negativePuffOffset
        else
          return (⟨placement.puffOffset.toNat, puffSize⟩, ⟨placement.drift, some deflate⟩)

/-- Lay out puffs in order. -/
def placePuffs (size : Nat) :
    (frontier : Frontier) → (deflates : List BitExtent) → Survey τ σ (List ByteExtent × Frontier)
  | frontier, [] => return ([], frontier)
  | frontier, deflate :: deflates => do
      let (puff, next) ← placePuff size frontier deflate
      let (puffs, last) ← placePuffs size next deflates
      return (puff :: puffs, last)

/-- Where the puffs of deflate data go that lies in the given extents, in order and without
overlap. -/
def puffLayout (deflates : List BitExtent) : Survey τ σ PuffLayout := do
  let size ← onStream ByteStream.size
  let (puffs, frontier) ← placePuffs size Frontier.start deflates
  let puffStreamSize := (size : Int) + frontier.drift
  if puffStreamSize < 0 then
    fail .negativePuffSize
  else
    return ⟨puffs, puffStreamSize.toNat⟩

end Survey

end DeflateAtlas
