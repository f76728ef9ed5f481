import DeflateAtlas.Proofs.Locate.LayoutLaw
import DeflateAtlas.Proofs.Locate.Tiling

/-!
# Laying out the puffs of blocks

The blocks that splitting reports can be laid out.  Each is parsed once more, by
itself and from the byte it begins in to the byte it ends in.  There its bits
stand at the same place in a byte as before, fewer than eight bits follow them,
and so the encoder takes just this block and writes what it wrote of it when it
took the whole stream.
-/

namespace DeflateAtlas

open BitSource Deflate Puff

/-! ## Blocks in a stream -/

/-- A block has been written in a bit extent of a stream. -/
structure Located (content : Bytes) (deflate : BitExtent) (block : Block) : Prop where
  valid : block.Valid deflate.offset
  begins : block.bits deflate.offset <+: (bitsOfBytes content.toList).drop deflate.offset
  length_eq : deflate.length = (block.bits deflate.offset).length

/-- Blocks that follow one another, with their extents. -/
def placedBlocks : (position : Nat) → List Block → List (BitExtent × Block)
  | _, [] => []
  | position, block :: blocks =>
      ((block.span position).extent, block) :: placedBlocks (block.stop position) blocks

theorem map_fst_placedBlocks (position : Nat) (blocks : List Block) :
    (placedBlocks position blocks).map Prod.fst = (blockSpans position blocks).map (·.extent) := by
  induction blocks generalizing position with
  | nil => rfl
  | cons block blocks ih => rw [placedBlocks, blockSpans, List.map_cons, List.map_cons, ih]

theorem map_snd_placedBlocks (position : Nat) (blocks : List Block) :
    (placedBlocks position blocks).map Prod.snd = blocks := by
  induction blocks generalizing position with
  | nil => rfl
  | cons block blocks ih => rw [placedBlocks, List.map_cons, ih]

theorem located_placedBlocks {content : Bytes} {position : Nat} {blocks : List Block}
    (valid : BlocksValid position blocks)
    (begins : blockBits position blocks <+: (bitsOfBytes content.toList).drop position) :
    ∀ placed ∈ placedBlocks position blocks, Located content placed.1 placed.2 := by
  induction blocks generalizing position with
  | nil => nofun
  | cons block blocks ih =>
      obtain ⟨blockValid, -, othersValid⟩ := valid
      rw [blockBits] at begins
      have first := (List.prefix_append _ _).trans begins
      intro placed inside
      rcases List.mem_cons.mp inside with rfl | inside
      · exact ⟨blockValid, first, rfl⟩
      · apply ih othersValid _ placed inside
        obtain ⟨rest, split⟩ := begins
        refine ⟨rest, ?_⟩
        rw [Block.stop, ← List.drop_drop, ← split, List.append_assoc, List.drop_left]
        rfl

theorem within_placedBlocks (position : Nat) (blocks : List Block) :
    ∀ placed ∈ placedBlocks position blocks, position ≤ placed.1.offset ∧
      placed.1.stop ≤ position + (blockBits position blocks).length := by
  induction blocks generalizing position with
  | nil => nofun
  | cons block blocks ih =>
      intro placed inside
      rw [blockBits, List.length_append]
      rcases List.mem_cons.mp inside with rfl | inside
      · simp only [Block.span, Extent.stop]
        omega
      · have later := ih (block.stop position) placed inside
        rw [Block.stop] at later
        rw [Block.stop]
        omega

theorem pairwise_placedBlocks (position : Nat) (blocks : List Block) :
    (placedBlocks position blocks).Pairwise
      fun first second => first.1.stop ≤ second.1.offset := by
  induction blocks generalizing position with
  | nil => exact .nil
  | cons block blocks ih =>
      apply List.Pairwise.cons _ (ih _)
      intro placed inside
      exact (within_placedBlocks _ blocks placed inside).1

/-! ## One block by itself -/

namespace Located

variable {content : Bytes} {deflate : BitExtent} {block : Block}

theorem stop_le (located : Located content deflate block) :
    bytesForBits deflate.stop ≤ content.size ∧ 0 < deflate.length := by
  have least := block.ten_le_length_bits deflate.offset
  have short := located.begins.length_le
  rw [← located.length_eq] at least short
  rw [List.length_drop, length_bitsOfBytes, Array.length_toList] at short
  rw [bytesForBits, Extent.stop]
  omega

/-- The bits of a block come first among the bits from its start to its last byte. -/
theorem begins_touchedBytes (located : Located content deflate block) :
    block.bits (deflate.offset % 8) <+:
      (bitsOfBytes (touchedBytes content deflate).toList).drop (deflate.offset % 8) := by
  have aligned : deflate.offset % 8 % 8 = deflate.offset % 8 := Nat.mod_mod _ _
  have place : deflate.offset / 8 * 8 + deflate.offset % 8 = deflate.offset := by omega
  rw [touchedBytes, bitsOfBytes_slice, List.drop_take, List.drop_drop, place,
    block.bits_congr aligned, List.prefix_take_iff]
  refine ⟨located.begins, ?_⟩
  rw [← located.length_eq, bytesForBits, Extent.stop]
  omega

/-- The encoder takes a block and nothing else from the bytes that it lies in. -/
theorem encode_touchedBytes (located : Located content deflate block) :
    ∃ start,
      BitSource.skip (deflate.offset % 8) (ofBytes (touchedBytes content deflate)) =
        .ok () start ∧
      (PuffEncoder.encode start Sink.measuring).result = .ok () ∧
      (PuffEncoder.encode start Sink.measuring).sink.size = (blockPuff block).length ∧
      (PuffEncoder.encode start Sink.measuring).source.bytesTouched =
        (touchedBytes content deflate).size := by
  have size := size_touchedBytes located.stop_le.1
  have positive := located.stop_le.2
  have available : deflate.offset % 8 ≤ (ofBytes (touchedBytes content deflate)).bits.length := by
    rw [bits_ofBytes, length_bitsOfBytes, Array.length_toList, size, bytesForBits, Extent.stop]
    omega
  obtain ⟨start, skipped, toStart⟩ := skip_of_le (wellFormed_ofBytes _) available
  have place : start.offset = deflate.offset % 8 := by
    rw [toStart.offset]
    exact Nat.zero_add _
  have aligned : deflate.offset % 8 = start.offset % 8 := by omega
  have valid : BlocksValid start.offset [block] :=
    ⟨block.valid_congr aligned located.valid, fun more => absurd rfl more, trivial⟩
  have bits : blockBits start.offset [block] = block.bits start.offset := by
    rw [blockBits, blockBits, List.append_nil]
  have length : (blockBits start.offset [block]).length = deflate.length := by
    rw [bits, ← block.bits_congr aligned, located.length_eq]
  have begins : blockBits start.offset [block] <+: start.bits := by
    rw [bits, place, toStart.bits, bits_ofBytes]
    exact located.begins_touchedBytes
  -- The data is cut at a byte boundary, so less than a byte follows the block.
  have few : start.remaining < (blockBits start.offset [block]).length + 8 := by
    have all := start.length_bits
    rw [toStart.bits, List.length_drop, bits_ofBytes, length_bitsOfBytes, Array.length_toList,
      size, bytesForBits, Extent.stop] at all
    rw [length]
    omega
  obtain ⟨after, run, taken⟩ := PuffEncoder.encode_complete toStart.wellFormed valid begins
    (.inr few) (rfl : Sink.measuring.waiting = #[])
  have whole : after.bytesTouched = (touchedBytes content deflate).size := by
    rw [bytesTouched, taken.offset, length, size, place, bytesForBits, bytesForBits, Extent.stop]
    omega
  refine ⟨start, skipped, ?_⟩
  rw [run, PuffEncoder.size_encoded, puff_cons]
  exact ⟨rfl, congrArg List.length (List.append_nil _), whole⟩

end Located

namespace Survey

variable {σ : Type} [ByteStream σ] [LawfulStream σ] {bench : Workbench PuffEncoder σ}
  {content : Bytes}

/-- The size of the puff of a block does not depend on what else is in the stream. -/
theorem puffSizeOfExtent_of_located {deflate : BitExtent} {block : Block}
    (shows : Shows bench.stream content true) (located : Located content deflate block) :
    ∃ after, puffSizeOfExtent deflate (bytesForBits deflate.stop) bench =
        .ok (blockPuff block).length after ∧
      Shows after.stream content true := by
  obtain ⟨start, skipped, success, size, touched⟩ := located.encode_touchedBytes
  obtain ⟨after, run, -, shown⟩ :=
    puffSizeOfExtent_of_run shows (.inl rfl) located.stop_le.1 skipped success touched
  have written : (Transform.run bench.transform start Sink.measuring).1.sink.size =
      (blockPuff block).length := size
  rw [written] at run
  exact ⟨after, run, shown⟩

theorem puffLayout_of_located {readable : Bool} {placed : List (BitExtent × Block)}
    (shows : Shows bench.stream content readable) (allowed : ∀ pair ∈ placed, readable = true)
    (located : ∀ pair ∈ placed, Located content pair.1 pair.2)
    (addressed : ∀ pair ∈ placed, pair.1.stop < addressLimit)
    (ordered : placed.Pairwise fun first second => first.1.stop ≤ second.1.offset) :
    ∃ layout after, puffLayout (placed.map Prod.fst) bench = .ok layout after ∧
      layout.puffs.map (·.length) = placed.map fun pair => (blockPuff pair.2).length := by
  have measures : ∀ pair ∈ placed, ∀ bench : Workbench PuffEncoder σ,
      Shows bench.stream content readable →
      ∃ after, puffSizeOfExtent pair.1 (bytesForBits pair.1.stop) bench =
          .ok (blockPuff pair.2).length after ∧
        Shows after.stream content readable := by
    intro pair inside bench shows
    rw [allowed pair inside] at shows ⊢
    exact puffSizeOfExtent_of_located shows (located pair inside)
  exact puffLayout_of_measured (size_of_shows shows) measures addressed
    (fun pair inside => (located pair inside).stop_le.1) ordered shows

end Survey

/-! ## Extents -/

namespace Filled

variable {content : Bytes} {extent : ByteExtent} {blocks : List Block}

theorem located (filled : Filled content extent blocks) :
    ∀ pair ∈ placedBlocks (extent.offset * 8) blocks, Located content pair.1 pair.2 :=
  located_placedBlocks filled.valid filled.begins

theorem within_extent (filled : Filled content extent blocks) :
    ∀ pair ∈ placedBlocks (extent.offset * 8) blocks,
      extent.offset * 8 ≤ pair.1.offset ∧ pair.1.stop ≤ extent.stop * 8 := by
  intro pair inside
  have within := within_placedBlocks _ blocks pair inside
  rw [filled.length_eq, ← Nat.add_mul] at within
  exact within

/-- The puffs of the blocks of an extent are as long together as the puff of all of it. -/
theorem sum_eq (filled : Filled content extent blocks) :
    ((placedBlocks (extent.offset * 8) blocks).map fun pair => (blockPuff pair.2).length).sum =
      (wholeRun content extent).sink.size := by
  have second : (placedBlocks (extent.offset * 8) blocks).map
      (fun pair => (blockPuff pair.2).length) =
        blocks.map fun block => (blockPuff block).length := by
    have blocksOnly := map_snd_placedBlocks (extent.offset * 8) blocks
    conv => rhs; rw [← blocksOnly, List.map_map]
    rfl
  rw [second, filled.size_eq, puff, List.length_flatMap]

end Filled

/-- A list with the measures of some groups can be cut into groups that have them. -/
theorem exists_groups {α β : Type} (measure : α → β) {whole : List α} {groups : List (List β)}
    (measures : whole.map measure = groups.flatten) :
    ∃ parts : List (List α), whole = parts.flatten ∧ parts.map (List.map measure) = groups := by
  induction groups generalizing whole with
  | nil => exact ⟨[], List.map_eq_nil_iff.mp measures, rfl⟩
  | cons group groups ih =>
      rw [List.flatten_cons] at measures
      obtain ⟨first, rest, rfl, rfl, others⟩ := List.map_eq_append_iff.mp measures
      obtain ⟨parts, rfl, rfl⟩ := ih others
      exact ⟨first :: parts, rfl, rfl⟩

theorem exists_blocksOf {content : Bytes} {extents : List ByteExtent}
    (filled : ∀ extent ∈ extents, ∃ blocks, Filled content extent blocks) :
    ∃ blocksOf : ByteExtent → List Block,
      ∀ extent ∈ extents, Filled content extent (blocksOf extent) := by
  classical
  refine ⟨fun extent =>
    if found : ∃ blocks, Filled content extent blocks then found.choose else [], ?_⟩
  intro extent inside
  dsimp only
  rw [dif_pos (filled extent inside)]
  exact (filled extent inside).choose_spec

/-- The blocks of extents, one after another. -/
def placedWithin (extents : List ByteExtent) (blocksOf : ByteExtent → List Block) :
    List (BitExtent × Block) :=
  extents.flatMap fun extent => placedBlocks (extent.offset * 8) (blocksOf extent)

section FilledExtents

variable {content : Bytes} {extents : List ByteExtent} {blocksOf : ByteExtent → List Block}

theorem map_fst_placedWithin
    (filled : ∀ extent ∈ extents, Filled content extent (blocksOf extent)) :
    (placedWithin extents blocksOf).map Prod.fst =
      (extents.map (blocksWithin content)).flatten := by
  rw [placedWithin, List.map_flatMap, List.flatMap_def]
  apply congrArg
  apply List.map_congr_left
  intro extent inside
  rw [map_fst_placedBlocks, (filled extent inside).blocks_eq]

theorem located_placedWithin
    (filled : ∀ extent ∈ extents, Filled content extent (blocksOf extent)) :
    ∀ pair ∈ placedWithin extents blocksOf, Located content pair.1 pair.2 := by
  intro pair inside
  obtain ⟨extent, isExtent, inside⟩ := List.mem_flatMap.mp inside
  exact (filled extent isExtent).located pair inside

/-- Blocks of extents that do not overlap do not overlap. -/
theorem pairwise_placedWithin
    (filled : ∀ extent ∈ extents, Filled content extent (blocksOf extent))
    (ordered : extents.Pairwise fun first second => first.stop ≤ second.offset) :
    (placedWithin extents blocksOf).Pairwise
      fun first second => first.1.stop ≤ second.1.offset := by
  apply List.pairwise_flatMap.mpr
  constructor
  · intro extent _
    exact pairwise_placedBlocks _ _
  · apply ordered.imp_of_mem
    intro first second isFirst isSecond apart pair inside other otherInside
    have before := ((filled first isFirst).within_extent pair inside).2
    have behind := ((filled second isSecond).within_extent other otherInside).1
    omega

section Groups

variable {puffGroups : List (List ByteExtent)}
  (filled : ∀ extent ∈ extents, Filled content extent (blocksOf extent))
  (sizes : puffGroups.map (List.map (·.length)) = extents.map fun extent =>
    (placedBlocks (extent.offset * 8) (blocksOf extent)).map fun pair => (blockPuff pair.2).length)
include filled sizes

theorem map_length_groups :
    puffGroups.map List.length =
      extents.map fun extent => (blocksWithin content extent).length := by
  have lengths := congrArg (List.map List.length) sizes
  simp only [List.map_map, Function.comp_def, List.length_map] at lengths
  rw [lengths]
  apply List.map_congr_left
  intro extent inside
  rw [(filled extent inside).blocks_eq, ← map_fst_placedBlocks, List.length_map]

theorem map_totalLength_groups :
    puffGroups.map Extent.totalLength =
      extents.map fun extent => (wholeRun content extent).sink.size := by
  have sums := congrArg (List.map List.sum) sizes
  rw [List.map_map, List.map_map] at sums
  calc
    puffGroups.map Extent.totalLength = puffGroups.map (List.sum ∘ List.map (·.length)) := rfl
    _ = _ := sums
    _ = extents.map fun extent => (wholeRun content extent).sink.size := by
      apply List.map_congr_left
      intro extent inside
      exact (filled extent inside).sum_eq

end Groups

/-- A stream with a block in it has been read. -/
theorem readable_of_placedWithin {readable : Bool}
    (filled : ∀ extent ∈ extents, Filled content extent (blocksOf extent))
    (allowed : ∀ extent ∈ extents, readable = true ∨ extent.length = 0) :
    ∀ pair ∈ placedWithin extents blocksOf, readable = true := by
  intro pair inside
  obtain ⟨extent, isExtent, inside⟩ := List.mem_flatMap.mp inside
  rcases allowed extent isExtent with read | empty
  · exact read
  · have within := (filled extent isExtent).within_extent pair inside
    have positive := ((filled extent isExtent).located pair inside).stop_le.2
    rw [Extent.stop, Extent.stop, empty] at within
    omega

end FilledExtents

namespace Survey

variable {σ : Type} [ByteStream σ] [LawfulStream σ]

/-- The two stages agree: the blocks that have been found in ordered extents of a stream can be
laid out in the same stream, one puff for each, and the puffs of the blocks of an extent are as
long together as the puff of the whole extent.  Bits have 64-bit addresses, so a block is taken to
end at one. -/
theorem puffLayout_of_deflateBlocks {extents : List ByteExtent} {blocks : List BitExtent}
    {bench after : Workbench PuffEncoder σ}
    (ordered : extents.Pairwise fun first second => first.stop ≤ second.offset)
    (ended : deflateBlocks extents bench = .ok blocks after)
    (addressed : ∀ block ∈ blocks, block.stop < addressLimit) :
    ∃ content readable, Shows bench.stream content readable ∧
      Shows after.stream content readable ∧
      blocks = (extents.map (blocksWithin content)).flatten ∧
      ∀ later : Workbench PuffEncoder σ, Shows later.stream content readable →
        ∃ (layout : PuffLayout) (final : Workbench PuffEncoder σ)
          (puffGroups : List (List ByteExtent)),
          puffLayout blocks later = .ok layout final ∧
          layout.puffs.length = blocks.length ∧
          layout.puffs = puffGroups.flatten ∧
          puffGroups.map List.length =
            extents.map (fun extent => (blocksWithin content extent).length) ∧
          puffGroups.map Extent.totalLength =
            extents.map (fun extent => (wholeRun content extent).sink.size) := by
  obtain ⟨content, readable, shows, left, split, whole⟩ := deflateBlocks_eq_ok ended
  obtain ⟨blocksOf, filled⟩ :=
    exists_blocksOf fun extent inside => (whole extent inside).exists_filled
  have extentsOf : blocks = (placedWithin extents blocksOf).map Prod.fst := by
    rw [split, map_fst_placedWithin filled]
  have addressedPairs : ∀ pair ∈ placedWithin extents blocksOf, pair.1.stop < addressLimit := by
    intro pair inside
    apply addressed
    rw [extentsOf]
    exact List.mem_map_of_mem inside
  have allowed :=
    readable_of_placedWithin filled fun extent inside => (whole extent inside).allowed
  refine ⟨content, readable, shows, left, split, ?_⟩
  intro later shown
  obtain ⟨layout, final, run, sizes⟩ := puffLayout_of_located shown allowed
    (located_placedWithin filled) addressedPairs (pairwise_placedWithin filled ordered)
  have count := congrArg List.length sizes
  rw [List.length_map, List.length_map] at count
  rw [placedWithin, List.map_flatMap, List.flatMap_def] at sizes
  obtain ⟨puffGroups, cut, groupSizes⟩ := exists_groups _ sizes
  rw [← extentsOf] at run
  refine ⟨layout, final, puffGroups, run, ?_, cut, map_length_groups filled groupSizes,
    map_totalLength_groups filled groupSizes⟩
  rw [extentsOf, List.length_map, count]

/-- Two blocks that meet inside a byte, and behind them a stream of one block. -/
theorem puffLayout_of_deflateBlocks_unaligned :
    let content := unalignedStream #[1, 1, 0, 254, 255, 98]
    ∃ layout final firstPuffs secondPuffs,
      puffLayout [⟨0, 10⟩, ⟨10, 46⟩, ⟨56, 48⟩]
        (start PuffEncoder.mk (BufferStream.reading content)) = .ok layout final ∧
      layout.puffs = firstPuffs ++ secondPuffs ∧
      firstPuffs.length = 2 ∧ Extent.totalLength firstPuffs = 8 ∧
      secondPuffs.length = 1 ∧ Extent.totalLength secondPuffs = 6 := by
  intro content
  let bench : Workbench PuffEncoder BufferStream := start .mk (BufferStream.reading content)
  have shows : Shows bench.stream content true := ⟨0, rfl⟩
  obtain ⟨firstWhole, first⟩ := whole_unaligned #[1, 1, 0, 254, 255, 98]
  let letter : List Block := [⟨.stored 0 #[98], some 0⟩]
  have within : Extent.endsWithin ⟨7, 6⟩ content.size := by decide
  have valid : BlocksValid 56 letter := blocksValid_stored 56 (by decide)
  have begins : blockBits 56 letter <+: (bitsOfBytes content.toList).drop 56 := by decide
  have length : (blockBits 56 letter).length = 6 * 8 := by decide
  have second : Filled content ⟨7, 6⟩ letter := filled_of_blocks within valid begins length
  have secondWhole : Whole content true ⟨7, 6⟩ :=
    (whole_of_blocks within valid begins length (.inl rfl)).1
  have firstBlocks : blocksWithin content ⟨0, 7⟩ = [⟨0, 10⟩, ⟨10, 46⟩] := by
    rw [first.blocks_eq, Nat.zero_mul, blockSpans_unaligned]
  have secondBlocks : blocksWithin content ⟨7, 6⟩ = [⟨56, 48⟩] := by
    rw [second.blocks_eq]
    decide
  obtain ⟨after, ended, -⟩ := deflateBlocks_of_whole shows
    (List.forall_mem_cons.mpr ⟨firstWhole, List.forall_mem_singleton.mpr secondWhole⟩)
  rw [List.map_cons, List.map_singleton, firstBlocks, secondBlocks] at ended
  obtain ⟨found, readable, seen, -, -, laysOut⟩ :=
    puffLayout_of_deflateBlocks (by decide) ended (by decide)
  obtain ⟨rfl, -⟩ := seen.unique shows
  obtain ⟨layout, final, groups, laid, -, cut, counts, sums⟩ := laysOut bench seen
  have firstSize : (wholeRun content ⟨0, 7⟩).sink.size = 8 := by
    rw [first.size_eq]
    simp [unalignedBlocks, puff, blockPuff, contentPuff, tokensPuff, piecesPuff, pieces, runs_nil]
  have secondSize : (wholeRun content ⟨7, 6⟩).sink.size = 6 := by
    rw [second.size_eq]
    decide
  rw [List.map_cons, List.map_singleton, firstBlocks, secondBlocks] at counts
  rw [List.map_cons, List.map_singleton, firstSize, secondSize] at sums
  obtain ⟨firstPuffs, others, rfl, firstCount, rest⟩ := List.map_eq_cons_iff.mp counts
  obtain ⟨secondPuffs, _, rfl, secondCount, none⟩ := List.map_eq_cons_iff.mp rest
  obtain rfl := List.map_eq_nil_iff.mp none
  injection sums with firstSum sums
  injection sums with secondSum
  rw [List.flatten_cons, List.flatten_singleton] at cut
  exact ⟨layout, final, firstPuffs, secondPuffs, laid, cut, firstCount, firstSum, secondCount,
    secondSum⟩

end Survey

end DeflateAtlas
