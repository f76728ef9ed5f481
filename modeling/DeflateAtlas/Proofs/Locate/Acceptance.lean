import DeflateAtlas.Proofs.Locate.Tiling

/-!
# Which extents are split

Splitting asks of an extent that complete blocks fill it, and of these blocks that
none but the last is final.  The encoder stops where fewer than eight bits are left
as well as behind a final block, so the last block need not be final: an extent is
also split if it is empty, or if it holds the first blocks of a stream up to a byte
boundary.
-/

namespace DeflateAtlas

open BitSource Deflate Puff

/-- The bits of a byte extent. -/
def extentBits (content : Bytes) (extent : ByteExtent) : List Bool :=
  ((bitsOfBytes content.toList).drop (extent.offset * 8)).take (extent.length * 8)

/-- The bits of an extent are those of complete blocks; only the last one may be final. -/
structure HoldsBlocks (content : Bytes) (extent : ByteExtent) (blocks : List Block) : Prop where
  valid : BlocksValid (extent.offset * 8) blocks
  bits_eq : extentBits content extent = blockBits (extent.offset * 8) blocks

/-- The bits of an extent are those of one complete stream, with its final block. -/
def HoldsStream (content : Bytes) (extent : ByteExtent) : Prop :=
  ∃ blocks, HoldsBlocks content extent blocks ∧ EndsFinal blocks

theorem length_extentBits {content : Bytes} {extent : ByteExtent}
    (within : extent.stop ≤ content.size) :
    (extentBits content extent).length = extent.length * 8 := by
  rw [Extent.stop] at within
  rw [extentBits, List.length_take, List.length_drop, length_bitsOfBytes, Array.length_toList]
  omega

theorem Filled.holdsBlocks {content : Bytes} {extent : ByteExtent} {blocks : List Block}
    (filled : Filled content extent blocks) : HoldsBlocks content extent blocks where
  valid := filled.valid
  bits_eq := by
    have taken := List.prefix_iff_eq_take.mp filled.begins
    rw [filled.length_eq] at taken
    exact taken.symm

namespace HoldsBlocks

variable {content : Bytes} {readable : Bool} {extent : ByteExtent} {blocks others : List Block}

theorem whole (holds : HoldsBlocks content extent blocks)
    (within : extent.endsWithin content.size)
    (allowed : readable = true ∨ extent.length = 0) :
    Whole content readable extent ∧
      blocksWithin content extent = (blockSpans (extent.offset * 8) blocks).map (·.extent) := by
  have inside := (Extent.endsWithin_iff.mp within).2
  have length := length_extentBits inside
  rw [holds.bits_eq] at length
  refine whole_of_blocks within holds.valid ?_ length allowed
  rw [← holds.bits_eq]
  exact List.take_prefix _ _

theorem encode_eq (holds : HoldsBlocks content extent blocks) (buffer : Bytes) :
    ∃ after, PuffEncoder.encode (ofBytes (content.slice extent.offset extent.length))
      (Sink.appending buffer) = PuffEncoder.encoded 0 blocks after (Sink.appending buffer) := by
  have aligned : (extent.offset * 8) % 8 = 0 % 8 := by omega
  have start : (ofBytes (content.slice extent.offset extent.length)).offset = 0 := rfl
  have bits : (ofBytes (content.slice extent.offset extent.length)).bits = blockBits 0 blocks := by
    rw [bits_ofBytes, bitsOfBytes_slice, ← blockBits_congr aligned, ← holds.bits_eq, extentBits]
  have size := congrArg List.length bits
  rw [length_bits] at size
  obtain ⟨after, run, -⟩ := PuffEncoder.encode_complete (wellFormed_ofBytes _)
    (start ▸ blocksValid_congr aligned holds.valid)
    ⟨[], by rw [List.append_nil, start, bits]⟩ (.inr (by rw [start]; omega))
    (rfl : (Sink.appending buffer).waiting = #[])
  exact ⟨after, run⟩

/-- The bits of an extent are blocks in one way at most. -/
theorem unique (holds : HoldsBlocks content extent blocks)
    (otherHolds : HoldsBlocks content extent others) : blocks = others := by
  obtain ⟨after, run⟩ := holds.encode_eq #[]
  obtain ⟨otherAfter, otherRun⟩ := otherHolds.encode_eq #[]
  have outputs := congrArg Sink.output (congrArg Transformed.sink (run.symm.trans otherRun))
  rw [PuffEncoder.output_encoded, PuffEncoder.output_encoded, Option.some.injEq,
    Array.append_right_inj] at outputs
  exact puff_injective holds.valid otherHolds.valid (congrArg Array.toList outputs)

/-- The blocks of an extent are a complete stream if the last one is final. -/
theorem holdsStream_iff (holds : HoldsBlocks content extent blocks) :
    HoldsStream content extent ↔ EndsFinal blocks := by
  constructor
  · rintro ⟨others, otherHolds, final⟩
    rwa [holds.unique otherHolds]
  · intro final
    exact ⟨blocks, holds, final⟩

end HoldsBlocks

/-- An extent is accepted as the blocks that fill it. -/
structure AcceptedAs (content : Bytes) (readable : Bool) (extent : ByteExtent)
    (blocks : List Block) : Prop where
  within : extent.endsWithin content.size
  /-- Nothing is read for an empty extent. -/
  allowed : readable = true ∨ extent.length = 0
  holds : HoldsBlocks content extent blocks
  onlyLast : ∀ block ∈ blocks.dropLast, block.isFinal = false
  /-- Accepting says nothing about the last block, so nothing about the stream being complete. -/
  complete_iff : HoldsStream content extent ↔ EndsFinal blocks

theorem Deflate.BlocksValid.onlyLast {position : Nat} {blocks : List Block}
    (valid : BlocksValid position blocks) : ∀ block ∈ blocks.dropLast, block.isFinal = false := by
  induction blocks generalizing position with
  | nil => nofun
  | cons block blocks ih =>
      obtain ⟨-, notFinal, others⟩ := valid
      cases blocks with
      | nil => nofun
      | cons next blocks =>
          rw [List.dropLast_cons_cons, List.forall_mem_cons]
          exact ⟨notFinal (List.cons_ne_nil _ _), ih others⟩

theorem HoldsBlocks.acceptedAs {content : Bytes} {readable : Bool} {extent : ByteExtent}
    {blocks : List Block} (holds : HoldsBlocks content extent blocks)
    (within : extent.endsWithin content.size) (allowed : readable = true ∨ extent.length = 0) :
    AcceptedAs content readable extent blocks :=
  ⟨within, allowed, holds, holds.valid.onlyLast, holds.holdsStream_iff⟩

/-- Where the blocks of an extent lie in the stream. -/
def placesOf (extent : ByteExtent) (blocks : List Block) : List BitExtent :=
  (blockSpans (extent.offset * 8) blocks).map (·.extent)

theorem AcceptedAs.whole {content : Bytes} {readable : Bool} {extent : ByteExtent}
    {blocks : List Block} (accepted : AcceptedAs content readable extent blocks) :
    Whole content readable extent ∧ blocksWithin content extent = placesOf extent blocks :=
  accepted.holds.whole accepted.within accepted.allowed

theorem Whole.exists_acceptedAs {content : Bytes} {readable : Bool} {extent : ByteExtent}
    (whole : Whole content readable extent) :
    ∃ blocks, AcceptedAs content readable extent blocks := by
  obtain ⟨blocks, filled⟩ := whole.exists_filled
  exact ⟨blocks, filled.holdsBlocks.acceptedAs whole.within whole.allowed⟩

theorem exists_acceptedAs {content : Bytes} {readable : Bool} {extents : List ByteExtent}
    (whole : ∀ extent ∈ extents, Whole content readable extent) :
    ∃ groups, List.Forall₂ (AcceptedAs content readable) extents groups := by
  induction extents with
  | nil => exact ⟨[], .nil⟩
  | cons extent extents ih =>
      rw [List.forall_mem_cons] at whole
      obtain ⟨blocks, accepted⟩ := whole.1.exists_acceptedAs
      obtain ⟨groups, others⟩ := ih whole.2
      exact ⟨blocks :: groups, .cons accepted others⟩

theorem whole_of_acceptedAs {content : Bytes} {readable : Bool} {extents : List ByteExtent}
    {groups : List (List Block)}
    (accepted : List.Forall₂ (AcceptedAs content readable) extents groups) :
    (∀ extent ∈ extents, Whole content readable extent) ∧
      extents.map (blocksWithin content) = List.zipWith placesOf extents groups := by
  induction accepted with
  | nil => exact ⟨nofun, rfl⟩
  | cons first others ih =>
      obtain ⟨whole, places⟩ := first.whole
      exact ⟨List.forall_mem_cons.mpr ⟨whole, ih.1⟩, by
        rw [List.map_cons, List.zipWith_cons_cons, places, ih.2]⟩

namespace Survey

variable {σ : Type} [ByteStream σ] [LawfulStream σ] {bench : Workbench PuffEncoder σ}

/-- Splitting succeeds if every extent is accepted as some blocks, and reports where they lie. -/
theorem deflateBlocks_ok_iff {extents : List ByteExtent} {blocks : List BitExtent} :
    (∃ after, deflateBlocks extents bench = .ok blocks after) ↔
      ∃ content readable groups, Shows bench.stream content readable ∧
        List.Forall₂ (AcceptedAs content readable) extents groups ∧
        blocks = (List.zipWith placesOf extents groups).flatten := by
  constructor
  · rintro ⟨after, ended⟩
    obtain ⟨content, readable, shows, -, rfl, whole⟩ := deflateBlocks_eq_ok ended
    obtain ⟨groups, accepted⟩ := exists_acceptedAs whole
    rw [(whole_of_acceptedAs accepted).2]
    exact ⟨content, readable, groups, shows, accepted, rfl⟩
  · rintro ⟨content, readable, groups, shows, accepted, rfl⟩
    obtain ⟨whole, places⟩ := whole_of_acceptedAs accepted
    obtain ⟨after, ended, -⟩ := deflateBlocks_of_whole shows whole
    rw [← places]
    exact ⟨after, ended⟩

/-- A block that stores the letter a and is not final is split, and so is nothing at all. -/
theorem deflateBlocks_unfinished :
    (∃ after,
      deflateBlocks [⟨0, 6⟩, ⟨6, 0⟩]
        (start PuffEncoder.mk (BufferStream.reading #[0, 1, 0, 254, 255, 97])) =
          .ok [⟨0, 48⟩] after) ∧
      ¬ HoldsStream #[0, 1, 0, 254, 255, 97] ⟨0, 6⟩ ∧
      ¬ HoldsStream #[0, 1, 0, 254, 255, 97] ⟨6, 0⟩ := by
  let content : Bytes := #[0, 1, 0, 254, 255, 97]
  have letter : HoldsBlocks content ⟨0, 6⟩ [⟨.stored 0 #[97], none⟩] :=
    ⟨⟨⟨⟨Nat.two_pow_pos _, by decide⟩, finalValid_none _⟩, fun more => absurd rfl more, trivial⟩,
      by decide⟩
  have nothing : HoldsBlocks content ⟨6, 0⟩ [] := ⟨trivial, by decide⟩
  refine ⟨?_, ?_, ?_⟩
  · let bench : Workbench PuffEncoder BufferStream := start .mk (BufferStream.reading content)
    have shows : Shows bench.stream content true := ⟨0, rfl⟩
    obtain ⟨whole, places⟩ := letter.whole (by decide) (.inl rfl)
    obtain ⟨emptyWhole, emptyPlaces⟩ := nothing.whole (by decide) (.inl rfl)
    obtain ⟨after, ended, -⟩ := deflateBlocks_of_whole shows
      (List.forall_mem_cons.mpr ⟨whole, List.forall_mem_singleton.mpr emptyWhole⟩)
    rw [List.map_cons, List.map_singleton, places, emptyPlaces] at ended
    exact ⟨after, ended⟩
  · rw [letter.holdsStream_iff]
    decide
  · rw [nothing.holdsStream_iff]
    decide

end Survey

end DeflateAtlas
