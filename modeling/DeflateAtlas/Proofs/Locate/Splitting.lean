import DeflateAtlas.Locate.Blocks
import DeflateAtlas.Proofs.Locate.Survey
import DeflateAtlas.Proofs.Puff.Encoding

/-!
# Splitting deflate streams into blocks

When the streams in some byte extents have been split into blocks, each extent
is filled by the bits of blocks that can follow one another, and what was
reported is where they lie in the whole stream.  `Filled` keeps these blocks, so
that they can be found again one by one.
-/

namespace DeflateAtlas

open BitSource Deflate Puff

namespace Deflate

theorem Block.stop_add (position bytes : Nat) (block : Block) :
    block.stop (position + bytes * 8) = block.stop position + bytes * 8 := by
  rw [stop, stop, block.bits_congr (by omega : (position + bytes * 8) % 8 = position % 8)]
  omega

theorem map_shift_blockSpans (position bytes : Nat) (blocks : List Block) :
    ((blockSpans position blocks).map (·.extent)).map (·.shift (bytes * 8)) =
      (blockSpans (position + bytes * 8) blocks).map (·.extent) := by
  induction blocks generalizing position with
  | nil => rfl
  | cons block blocks ih =>
      have aligned : (position + bytes * 8) % 8 = position % 8 := by omega
      rw [blockSpans, blockSpans, List.map_cons, List.map_cons, List.map_cons, ih,
        Block.stop_add]
      rw [Block.span, Block.span, block.bits_congr aligned]
      rfl

end Deflate

/-! ## Data that the encoder takes -/

namespace PuffEncoder

theorem size_encoded (position : Nat) (blocks : List Block) (after : BitSource) :
    (encoded position blocks after Sink.measuring).sink.size = (puff blocks).length := by
  simp [encoded, Sink.measuring, Sink.append, Sink.size, Sink.runSize]

theorem blocks_encoded_shift (blocks : List Block) (after : BitSource) (sink : Sink)
    (place : Nat) :
    (encoded 0 blocks after sink).blocks.map (·.shift (place * 8)) =
      (blockSpans (place * 8) blocks).map (·.extent) := by
  have shifted := map_shift_blockSpans 0 place blocks
  rwa [Nat.zero_add] at shifted

/-- Data that the encoder takes to its last byte consists of blocks, which lie in it as they would
if it began at another byte. -/
theorem exists_blocks_of_taken {data : Bytes} {length : Nat} (place : Nat)
    (ended : (encode (ofBytes data) Sink.measuring).result = .ok ())
    (taken : (encode (ofBytes data) Sink.measuring).source.offset = length * 8) :
    ∃ blocks, BlocksValid (place * 8) blocks ∧
      blockBits (place * 8) blocks <+: bitsOfBytes data.toList ∧
      (blockBits (place * 8) blocks).length = length * 8 ∧
      (encode (ofBytes data) Sink.measuring).blocks.map (·.shift (place * 8)) =
        (blockSpans (place * 8) blocks).map (·.extent) ∧
      (encode (ofBytes data) Sink.measuring).sink.size = (puff blocks).length := by
  obtain ⟨blocks, after, valid, begins, run, takes, -⟩ :=
    encode_sound (wellFormed_ofBytes data) rfl ended
  have start : (ofBytes data).offset = 0 := rfl
  have aligned : (place * 8) % 8 = 0 % 8 := by omega
  rw [start] at valid begins takes run
  rw [run] at taken
  have offset : after.offset = length * 8 := taken
  have moved := takes.offset
  rw [start, Nat.zero_add, offset] at moved
  rw [bits_ofBytes, ← blockBits_congr aligned] at begins
  rw [← blockBits_congr aligned] at moved
  rw [run, blocks_encoded_shift, size_encoded]
  exact ⟨blocks, blocksValid_congr aligned.symm valid, begins, moved.symm, rfl, rfl⟩

end PuffEncoder

/-! ## Extents and their blocks -/

/-- What the encoder leaves when it takes a whole byte extent at once. -/
def wholeRun (content : Bytes) (extent : ByteExtent) : Transformed :=
  PuffEncoder.encode (ofBytes (content.slice extent.offset extent.length)) Sink.measuring

/-- The blocks of an extent, in bits from the start of the stream. -/
def blocksWithin (content : Bytes) (extent : ByteExtent) : List BitExtent :=
  (wholeRun content extent).blocks.map (·.shift (extent.offset * 8))

/-- Blocks fill a byte extent of a stream. -/
structure Filled (content : Bytes) (extent : ByteExtent) (blocks : List Block) : Prop where
  within : extent.stop ≤ content.size
  valid : BlocksValid (extent.offset * 8) blocks
  begins : blockBits (extent.offset * 8) blocks <+:
    (bitsOfBytes content.toList).drop (extent.offset * 8)
  length_eq : (blockBits (extent.offset * 8) blocks).length = extent.length * 8
  /-- The blocks are reported. -/
  blocks_eq : blocksWithin content extent =
    (blockSpans (extent.offset * 8) blocks).map (·.extent)
  /-- They are written all at once as they are one by one. -/
  size_eq : (wholeRun content extent).sink.size = (puff blocks).length

theorem Extent.endsWithin_iff {extent : ByteExtent} {size : Nat} :
    extent.endsWithin size ↔ extent.stop < addressLimit ∧ extent.stop ≤ size := by
  simp only [Extent.endsWithin, Extent.stop?]
  split
  · rename_i address
    simp [address]
  · rename_i noAddress
    simp [noAddress]

/-- The encoder takes an extent of a stream from its first byte to its last. -/
structure Whole (content : Bytes) (readable : Bool) (extent : ByteExtent) : Prop where
  within : extent.endsWithin content.size
  allowed : readable = true ∨ extent.length = 0
  ended : (wholeRun content extent).result = .ok ()
  taken : (wholeRun content extent).source.offset = extent.length * 8

theorem Whole.exists_filled {content : Bytes} {readable : Bool} {extent : ByteExtent}
    (whole : Whole content readable extent) : ∃ blocks, Filled content extent blocks := by
  have within := (Extent.endsWithin_iff.mp whole.within).2
  obtain ⟨blocks, valid, begins, length, spans, size⟩ :=
    PuffEncoder.exists_blocks_of_taken extent.offset whole.ended whole.taken
  rw [bitsOfBytes_slice] at begins
  exact ⟨blocks, within, valid, begins.trans (List.take_prefix _ _), length, spans, size⟩

section Blocks

variable {content : Bytes} {extent : ByteExtent} {blocks : List Block}
  (within : extent.endsWithin content.size) (valid : BlocksValid (extent.offset * 8) blocks)
  (begins : blockBits (extent.offset * 8) blocks <+:
    (bitsOfBytes content.toList).drop (extent.offset * 8))
  (length : (blockBits (extent.offset * 8) blocks).length = extent.length * 8)
include within valid begins length

theorem wholeRun_of_blocks :
    ∃ after, wholeRun content extent = PuffEncoder.encoded 0 blocks after Sink.measuring ∧
      after.offset = extent.length * 8 := by
  have aligned : 0 % 8 = (extent.offset * 8) % 8 := by omega
  have data : (content.slice extent.offset extent.length).size = extent.length :=
    Bytes.size_slice (Extent.endsWithin_iff.mp within).2
  let source := ofBytes (content.slice extent.offset extent.length)
  have start : source.offset = 0 := rfl
  have wellFormed : source.WellFormed := wellFormed_ofBytes _
  have room : source.remaining = extent.length * 8 := by
    have bits := source.length_bits
    rwa [bits_ofBytes, length_bitsOfBytes, Array.length_toList, data, eq_comm] at bits
  obtain ⟨after, run, taken⟩ := PuffEncoder.encode_complete wellFormed
    (blocksValid_congr aligned.symm valid)
    (by
      rw [start, blockBits_congr aligned, bits_ofBytes, bitsOfBytes_slice, List.prefix_take_iff]
      exact ⟨begins, Nat.le_of_eq length⟩)
    (.inr (by
      rw [start, blockBits_congr aligned, length, room]
      omega))
    (rfl : Sink.measuring.waiting = #[])
  have offset := taken.offset
  rw [start, Nat.zero_add, blockBits_congr aligned, length] at offset
  exact ⟨after, run, offset⟩

theorem filled_of_blocks : Filled content extent blocks := by
  obtain ⟨after, run, -⟩ := wholeRun_of_blocks within valid begins length
  refine ⟨(Extent.endsWithin_iff.mp within).2, valid, begins, length, ?_, ?_⟩
  · rw [blocksWithin, run, PuffEncoder.blocks_encoded_shift]
  · rw [run, PuffEncoder.size_encoded]

/-- The encoder takes an extent that the bits of blocks fill. -/
theorem whole_of_blocks {readable : Bool} (allowed : readable = true ∨ extent.length = 0) :
    Whole content readable extent ∧
      blocksWithin content extent = (blockSpans (extent.offset * 8) blocks).map (·.extent) := by
  obtain ⟨after, run, offset⟩ := wholeRun_of_blocks within valid begins length
  refine ⟨⟨within, allowed, ?_, ?_⟩, (filled_of_blocks within valid begins length).blocks_eq⟩
  · rw [run]
    rfl
  · rw [run]
    exact offset

end Blocks

namespace Survey

variable {σ : Type} {bench after : Workbench PuffEncoder σ}

theorem measure_eq_ok {source : BitSource} {transformed : Transformed}
    (ended : measure source bench = .ok transformed after) :
    transformed = PuffEncoder.encode source Sink.measuring ∧ transformed.result = .ok () ∧
      after.stream = bench.stream := by
  obtain ⟨transform, stream, log⟩ := bench
  simp only [measure, Transform.run] at ended
  cases result : (PuffEncoder.encode source Sink.measuring).result with
  | ok value =>
      rw [result] at ended
      cases ended
      exact ⟨rfl, result, rfl⟩
  | error failure =>
      rw [result] at ended
      cases ended

variable [ByteStream σ] [LawfulStream σ] {content : Bytes} {readable : Bool}

theorem blocksOfExtent_of_whole {extent : ByteExtent}
    (shows : Shows bench.stream content readable) (whole : Whole content readable extent) :
    ∃ after, blocksOfExtent content.size extent bench = .ok (blocksWithin content extent) after ∧
      Shows after.stream content readable := by
  have inside := (Extent.endsWithin_iff.mp whole.within).2
  obtain ⟨stream, read, shown⟩ := readAt_of_shows shows inside whole.allowed
  have measured : ∃ log, measure (ofBytes (content.slice extent.offset extent.length))
      { bench with stream } = .ok (wholeRun content extent) ⟨bench.transform, stream, log⟩ :=
    measure_of_ok (whole.ended : (Transform.run bench.transform _ _).1.result = _) stream bench.log
  obtain ⟨log, measured⟩ := measured
  refine ⟨⟨bench.transform, stream, log⟩, ?_, shown⟩
  rw [blocksOfExtent, if_neg (not_not_intro whole.within)]
  refine bind_eq_ok_iff.mpr ⟨_, _, read, ?_⟩
  refine bind_eq_ok_iff.mpr ⟨_, _, measured, ?_⟩
  rw [if_neg (not_not_intro whole.taken)]
  rfl

theorem blocksOfExtent_eq_ok {extent : ByteExtent} {blocks : List BitExtent}
    (shows : Shows bench.stream content readable)
    (ended : blocksOfExtent content.size extent bench = .ok blocks after) :
    blocks = blocksWithin content extent ∧ Whole content readable extent ∧
      Shows after.stream content readable := by
  rw [blocksOfExtent] at ended
  by_cases within : extent.endsWithin content.size
  · rw [if_neg (not_not_intro within)] at ended
    have inside := (Extent.endsWithin_iff.mp within).2
    obtain ⟨data, first, read, ended⟩ := bind_eq_ok_iff.mp ended
    obtain ⟨allowed, rfl, stream, rfl, shows⟩ := readAt_eq_ok shows inside read
    obtain ⟨transformed, second, measured, ended⟩ := bind_eq_ok_iff.mp ended
    obtain ⟨whole, success, kept⟩ := measure_eq_ok measured
    have whole : transformed = wholeRun content extent := whole
    subst whole
    by_cases elsewhere : (wholeRun content extent).source.offset ≠ extent.length * 8
    · rw [if_pos elsewhere] at ended
      exact absurd ended (fail_ne_ok _)
    · rw [if_neg elsewhere] at ended
      cases ended
      refine ⟨rfl, ⟨within, allowed, success, Decidable.not_not.mp elsewhere⟩, ?_⟩
      rwa [kept]
  · rw [if_pos within] at ended
    exact absurd ended (fail_ne_ok _)

theorem mapM_blocksOfExtent_of_whole {extents : List ByteExtent}
    (shows : Shows bench.stream content readable)
    (whole : ∀ extent ∈ extents, Whole content readable extent) :
    ∃ after, extents.mapM (blocksOfExtent content.size) bench =
        .ok (extents.map (blocksWithin content)) after ∧
      Shows after.stream content readable := by
  induction extents generalizing bench with
  | nil => exact ⟨bench, rfl, shows⟩
  | cons extent extents ih =>
      obtain ⟨first, split, shows⟩ :=
        blocksOfExtent_of_whole shows (whole extent (List.mem_cons_self ..))
      obtain ⟨after, rest, shown⟩ := ih shows fun other inside => whole other (.tail _ inside)
      refine ⟨after, ?_, shown⟩
      rw [List.mapM_cons]
      refine bind_eq_ok_iff.mpr ⟨_, _, split, ?_⟩
      exact bind_eq_ok_iff.mpr ⟨_, _, rest, rfl⟩

theorem mapM_blocksOfExtent_eq_ok {extents : List ByteExtent} {groups : List (List BitExtent)}
    (shows : Shows bench.stream content readable)
    (ended : extents.mapM (blocksOfExtent content.size) bench = .ok groups after) :
    groups = extents.map (blocksWithin content) ∧
      (∀ extent ∈ extents, Whole content readable extent) ∧
      Shows after.stream content readable := by
  induction extents generalizing groups bench after with
  | nil =>
      cases ended
      exact ⟨rfl, nofun, shows⟩
  | cons extent extents ih =>
      rw [List.mapM_cons] at ended
      obtain ⟨blocks, first, split, ended⟩ := bind_eq_ok_iff.mp ended
      obtain ⟨rfl, whole, shows⟩ := blocksOfExtent_eq_ok shows split
      obtain ⟨others, second, rest, ended⟩ := bind_eq_ok_iff.mp ended
      obtain ⟨rfl, othersWhole, shows⟩ := ih shows rest
      cases ended
      refine ⟨rfl, ?_, shows⟩
      intro other inside
      rcases List.mem_cons.mp inside with rfl | inside
      · exact whole
      · exact othersWhole other inside

theorem deflateBlocks_of_whole {extents : List ByteExtent}
    (shows : Shows bench.stream content readable)
    (whole : ∀ extent ∈ extents, Whole content readable extent) :
    ∃ after, deflateBlocks extents bench =
        .ok (extents.map (blocksWithin content)).flatten after ∧
      Shows after.stream content readable := by
  obtain ⟨after, split, shown⟩ := mapM_blocksOfExtent_of_whole shows whole
  refine ⟨after, bind_eq_ok_iff.mpr ⟨_, _, size_of_shows shows, ?_⟩, shown⟩
  exact bind_eq_ok_iff.mpr ⟨_, _, split, rfl⟩

/-- What is reported are the blocks of the extents, all of which the encoder has taken. -/
theorem deflateBlocks_eq_ok {extents : List ByteExtent} {blocks : List BitExtent}
    (ended : deflateBlocks extents bench = .ok blocks after) :
    ∃ content readable, Shows bench.stream content readable ∧
      Shows after.stream content readable ∧
      blocks = (extents.map (blocksWithin content)).flatten ∧
      ∀ extent ∈ extents, Whole content readable extent := by
  obtain ⟨size, opened, sized, rest⟩ := bind_eq_ok_iff.mp ended
  obtain ⟨content, readable, shows, rfl, rfl⟩ := size_eq_ok sized
  obtain ⟨groups, state, split, flattened⟩ := bind_eq_ok_iff.mp rest
  obtain ⟨rfl, whole, left⟩ := mapM_blocksOfExtent_eq_ok shows split
  cases flattened
  exact ⟨content, readable, shows, left, rfl, whole⟩

end Survey

end DeflateAtlas
