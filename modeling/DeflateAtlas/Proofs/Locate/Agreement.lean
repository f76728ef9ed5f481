import DeflateAtlas.Proofs.Locate.Pipeline
import DeflateAtlas.Proofs.Locate.Tiling

/-!
# Laying out whole streams and their blocks

Deflate streams in ordered byte extents can be laid out as they are or block by
block, and the puff streams are equal.  Behind a whole stream both layouts have
the same drift.  Between two blocks of one stream nothing of the stream is left
over: if the boundary lies inside a byte, the two blocks share it, so the second
puff begins where the first one ends.  At the byte where a stream begins a puff
is placed by the drift alone, and since the puffs of the blocks are together as
long as the puff of the stream, the drifts are the same again behind it.
-/

namespace DeflateAtlas

open BitSource Deflate Puff

/-! ## Puffs of consecutive data -/

namespace Frontier

/-- Where a puff begins if its deflate data begins at a place. -/
def puffStart (frontier : Frontier) (place : Nat) : Int :=
  frontier.reached + frontier.distance ⟨place, 0⟩

theorem puffStart_offset (frontier : Frontier) (deflate : BitExtent) :
    frontier.puffStart deflate.offset = frontier.reached + frontier.distance deflate :=
  rfl

/-- Data that begins with a byte shares none with the data before it. -/
theorem puffStart_mul_eight (frontier : Frontier) (bytes : Nat) :
    frontier.puffStart (bytes * 8) = frontier.drift + bytes := by
  have apart : frontier.sharesByte ⟨bytes * 8, 0⟩ = false := by
    cases previous : frontier.previous with
    | none => simp [sharesByte, previous]
    | some last => simp [sharesByte, previous]
  rw [puffStart, reached, distance, apart, bytesForBits]
  simp only [Bool.false_eq_true, if_false]
  omega

end Frontier

/-- Data that begins where some other ends has its puff right behind the puff of that. -/
theorem Placed.puffStart_stop {size : Nat} {frontier next : Frontier} {deflate : BitExtent}
    {puff : ByteExtent} (placed : Placed size frontier deflate puff next) :
    next.puffStart deflate.stop = puff.stop := by
  have reached := placed.reached_next
  have apart : next.distance ⟨deflate.stop, 0⟩ = 0 := by
    rw [placed.next_eq, Frontier.distance_some]
    simp only [sharedBytes, bytesForBits, true_and]
    split
    · omega
    · omega
  rw [Frontier.puffStart, reached, apart, Int.add_zero]

namespace Laid

variable {size : Nat} {frontier last : Frontier} {deflates : List BitExtent}
  {puffs : List ByteExtent}

theorem consecutive (laid : Laid size frontier deflates puffs last) {first final begins : Nat}
    (data : Extent.Consecutive first final deflates)
    (place : (begins : Int) = frontier.puffStart first) :
    ∃ ends : Nat, (ends : Int) = last.puffStart final ∧
      Extent.Consecutive begins ends puffs := by
  induction laid generalizing first begins with
  | nil frontier =>
      have same : first = final := data
      rw [same] at place
      exact ⟨begins, place, rfl⟩
  | cons placed others ih =>
      obtain ⟨rfl, data⟩ := data
      obtain ⟨ends, reached, rest⟩ := ih data placed.puffStart_stop.symm
      rw [Frontier.puffStart_offset, ← placed.offset_eq] at place
      exact ⟨ends, reached, Int.ofNat_inj.mp place.symm, rest⟩

theorem exists_append {first second : List BitExtent}
    (laid : Laid size frontier (first ++ second) puffs last) :
    ∃ middle firstPuffs secondPuffs, puffs = firstPuffs ++ secondPuffs ∧
      Laid size frontier first firstPuffs middle ∧ Laid size middle second secondPuffs last := by
  induction first generalizing frontier puffs with
  | nil => exact ⟨frontier, [], puffs, rfl, .nil frontier, laid⟩
  | cons deflate first ih =>
      cases laid with
      | cons placed others =>
          obtain ⟨middle, firstPuffs, secondPuffs, rfl, firstLaid, secondLaid⟩ := ih others
          exact ⟨middle, _ :: firstPuffs, secondPuffs, rfl, .cons placed firstLaid, secondLaid⟩

end Laid

/-! ## Streams and their blocks -/

/-- The bits of a byte extent. -/
def Extent.inBits (extent : ByteExtent) : BitExtent :=
  ⟨extent.offset * 8, extent.length * 8⟩

theorem Extent.stop_inBits (extent : ByteExtent) : extent.inBits.stop = extent.stop * 8 := by
  rw [inBits, stop, stop, Nat.add_mul]

/-- Two layouts with the same drift have it again behind streams that one of them has laid out
whole and the other one block by block, and the puffs of the blocks fill those of the streams. -/
theorem Laid.agree {size : Nat} {first second firstLast secondLast : Frontier}
    {extents : List ByteExtent} {groups : List (List BitExtent)} {puffs : List ByteExtent}
    {puffGroups : List (List ByteExtent)}
    (whole : Laid size first (extents.map Extent.inBits) puffs firstLast)
    (parts : Laid size second groups.flatten puffGroups.flatten secondLast)
    (tiled : List.Forall₂ Tiled extents groups)
    (counts : puffGroups.map List.length = groups.map List.length)
    (sizes : puffGroups.map Extent.totalLength = puffs.map (·.length))
    (same : first.drift = second.drift) :
    firstLast.drift = secondLast.drift ∧
      List.Forall₂ (fun puff group => Extent.Consecutive puff.offset puff.stop group)
        puffs puffGroups := by
  -- One step is one stream and all of its blocks: between them the drifts may differ.
  induction tiled generalizing first second puffs puffGroups with
  | nil =>
      cases whole
      obtain rfl := List.map_eq_nil_iff.mp counts
      cases parts
      exact ⟨same, .nil⟩
  | @cons extent group extents groups isTiled tiled ih =>
      obtain ⟨puffGroup, puffGroups, rfl, count, counts⟩ := List.map_eq_cons_iff.mp counts
      cases whole with
      | @cons _ next _ _ puff _ puffs placed others =>
          obtain ⟨size_eq, sizes⟩ := List.cons.inj sizes
          obtain ⟨middle, groupPuffs, otherPuffs, split, groupLaid, othersLaid⟩ :=
            parts.exists_append
          obtain ⟨rfl, rfl⟩ := List.append_inj split (count.trans groupLaid.length_eq.symm)
          have begins : (puff.offset : Int) = second.puffStart (extent.offset * 8) := by
            rw [placed.offset_eq, ← Frontier.puffStart_offset, Frontier.puffStart_mul_eight, ← same]
            exact Frontier.puffStart_mul_eight first extent.offset
          obtain ⟨ends, reached, filled⟩ := groupLaid.consecutive isTiled.consecutive begins
          have total : ends = puff.stop := by
            rw [filled.last_eq, size_eq, Extent.stop]
          have wholeReached := placed.puffStart_stop
          rw [Extent.stop_inBits, Frontier.puffStart_mul_eight] at wholeReached
          rw [total, Frontier.puffStart_mul_eight] at reached
          rw [total] at filled
          obtain ⟨drifts, others⟩ := ih others othersLaid counts sizes (by omega)
          exact ⟨drifts, .cons filled others⟩

namespace Extent

theorem within_inBits {extent : ByteExtent} {size : Nat} (within : extent.endsWithin size) :
    bytesForBits extent.inBits.stop ≤ size := by
  have inside := (endsWithin_iff.mp within).2
  rw [stop_inBits, bytesForBits]
  omega

theorem touchedBytes_inBits (content : Bytes) (extent : ByteExtent) :
    touchedBytes content extent.inBits = content.slice extent.offset extent.length := by
  have first : extent.inBits.offset / 8 = extent.offset := Nat.mul_div_cancel _ (by decide)
  have length : bytesForBits extent.inBits.stop - extent.offset = extent.length := by
    rw [stop_inBits, bytesForBits, stop]
    omega
  rw [touchedBytes, first, length]

end Extent

theorem Filled.tiled {content : Bytes} {extent : ByteExtent} {blocks : List Block}
    (filled : Filled content extent blocks) : Tiled extent (blocksWithin content extent) := by
  rw [filled.blocks_eq]
  exact tiled_blockSpans filled.length_eq

theorem addressed_placedWithin {content : Bytes} {extents : List ByteExtent}
    {blocksOf : ByteExtent → List Block}
    (filled : ∀ extent ∈ extents, Filled content extent (blocksOf extent))
    (addressed : ∀ extent ∈ extents, extent.stop * 8 < addressLimit) :
    ∀ pair ∈ placedWithin extents blocksOf, pair.1.stop < addressLimit := by
  intro pair inside
  obtain ⟨extent, isExtent, inside⟩ := List.mem_flatMap.mp inside
  have within := ((filled extent isExtent).within_extent pair inside).2
  have limit := addressed extent isExtent
  omega

namespace Survey

variable {σ : Type} [ByteStream σ] [LawfulStream σ] {content : Bytes} {readable : Bool}

theorem laid_of_puffLayout {τ : Type} [Transform τ] {bench after : Workbench τ σ}
    {deflates : List BitExtent} {layout : PuffLayout}
    (shows : Shows bench.stream content readable)
    (ended : puffLayout deflates bench = .ok layout after) :
    ∃ last, Laid content.size Frontier.start deflates layout.puffs last ∧
      (layout.size : Int) = content.size + last.drift := by
  obtain ⟨size, opened, last, sized, placed, total⟩ := puffLayout_eq_ok_iff.mp ended
  rw [size_of_shows shows] at sized
  cases sized
  exact ⟨last, placePuffs_eq_ok placed, total⟩

variable {bench : Workbench PuffEncoder σ} {extents : List ByteExtent}

theorem puffSizeOfExtent_of_whole {extent : ByteExtent}
    (shows : Shows bench.stream content readable) (whole : Whole content readable extent) :
    ∃ after, puffSizeOfExtent extent.inBits (bytesForBits extent.inBits.stop) bench =
        .ok (wholeRun content extent).sink.size after ∧
      Shows after.stream content readable := by
  have data := Extent.touchedBytes_inBits content extent
  have within := Extent.within_inBits whole.within
  have size := size_touchedBytes within
  have length : (content.slice extent.offset extent.length).size = extent.length :=
    Bytes.size_slice (Extent.endsWithin_iff.mp whole.within).2
  rw [data, length] at size
  have aligned : extent.inBits.offset % 8 = 0 := Nat.mul_mod_left _ _
  have skipped : BitSource.skip (extent.inBits.offset % 8)
      (ofBytes (touchedBytes content extent.inBits)) =
        .ok () (ofBytes (content.slice extent.offset extent.length)) := by
    rw [aligned, data, skip_zero]
  have touched : (wholeRun content extent).source.bytesTouched =
      (touchedBytes content extent.inBits).size := by
    rw [bytesTouched, whole.taken, data, length, bytesForBits]
    omega
  obtain ⟨after, run, -, shown⟩ := puffSizeOfExtent_of_run shows
    (whole.allowed.imp_right fun empty => size.symm.trans empty) within skipped whole.ended touched
  exact ⟨after, run, shown⟩

/-- Streams that have been split can be laid out whole. -/
theorem puffLayout_of_whole (shows : Shows bench.stream content readable)
    (whole : ∀ extent ∈ extents, Whole content readable extent)
    (addressed : ∀ extent ∈ extents, extent.stop * 8 < addressLimit)
    (ordered : extents.Pairwise fun first second => first.stop ≤ second.offset) :
    ∃ layout after, puffLayout (extents.map Extent.inBits) bench = .ok layout after ∧
      layout.puffs.map (·.length) = extents.map fun extent => (wholeRun content extent).sink.size := by
  have measures : ∀ extent ∈ extents, ∀ bench : Workbench PuffEncoder σ,
      Shows bench.stream content readable →
      ∃ after, puffSizeOfExtent extent.inBits (bytesForBits extent.inBits.stop) bench =
          .ok (wholeRun content extent).sink.size after ∧
        Shows after.stream content readable := by
    intro extent inside bench shows
    exact puffSizeOfExtent_of_whole shows (whole extent inside)
  apply puffLayout_of_measured (size_of_shows shows) measures _ _ _ shows
  · intro extent inside
    rw [Extent.stop_inBits]
    exact addressed extent inside
  · intro extent inside
    exact Extent.within_inBits (whole extent inside).within
  · refine ordered.imp ?_
    intro first second apart
    rw [Extent.stop_inBits]
    exact Nat.mul_le_mul_right 8 apart

/-- Laying out ordered streams whole and laying out the blocks that they have been split into gives
puff streams of one size, in which the puffs of the blocks of a stream follow one another and fill
the puff of the whole stream.  Bits have 64-bit addresses, so a stream is taken to end at one. -/
theorem puffLayout_streams_blocks {blocks : List BitExtent} {after : Workbench PuffEncoder σ}
    (ordered : extents.Pairwise fun first second => first.stop ≤ second.offset)
    (ended : deflateBlocks extents bench = .ok blocks after)
    (addressed : ∀ extent ∈ extents, extent.stop * 8 < addressLimit) :
    ∃ content readable, Shows bench.stream content readable ∧
      Shows after.stream content readable ∧
      ∀ first second : Workbench PuffEncoder σ,
        Shows first.stream content readable → Shows second.stream content readable →
        ∃ (byStreams byBlocks : PuffLayout) (firstFinal secondFinal : Workbench PuffEncoder σ)
          (groups : List (List BitExtent)) (puffGroups : List (List ByteExtent)),
          puffLayout (extents.map Extent.inBits) first = .ok byStreams firstFinal ∧
          puffLayout blocks second = .ok byBlocks secondFinal ∧
          byStreams.size = byBlocks.size ∧
          blocks = groups.flatten ∧
          List.Forall₂ Tiled extents groups ∧
          byBlocks.puffs = puffGroups.flatten ∧
          puffGroups.map List.length = groups.map List.length ∧
          List.Forall₂ (fun puff puffs => Extent.Consecutive puff.offset puff.stop puffs)
            byStreams.puffs puffGroups := by
  obtain ⟨content, readable, shows, left, split, whole⟩ := deflateBlocks_eq_ok ended
  obtain ⟨blocksOf, filled⟩ :=
    exists_blocksOf fun extent inside => (whole extent inside).exists_filled
  have tiled : List.Forall₂ Tiled extents (extents.map (blocksWithin content)) := by
    apply List.forall₂_map_right_iff.mpr
    apply List.forall₂_same.mpr
    intro extent inside
    exact (filled extent inside).tiled
  refine ⟨content, readable, shows, left, ?_⟩
  intro first second firstShows secondShows
  obtain ⟨byStreams, firstFinal, streamsRun, streamSizes⟩ :=
    puffLayout_of_whole firstShows whole addressed ordered
  obtain ⟨byBlocks, secondFinal, blocksRun, blockSizes⟩ := puffLayout_of_located secondShows
    (readable_of_placedWithin filled fun extent inside => (whole extent inside).allowed)
    (located_placedWithin filled) (addressed_placedWithin filled addressed)
    (pairwise_placedWithin filled ordered)
  rw [map_fst_placedWithin filled, ← split] at blocksRun
  rw [placedWithin, List.map_flatMap, List.flatMap_def] at blockSizes
  obtain ⟨puffGroups, cut, groupSizes⟩ := exists_groups _ blockSizes
  obtain ⟨streamsLast, streamsLaid, streamsTotal⟩ := laid_of_puffLayout firstShows streamsRun
  obtain ⟨blocksLast, blocksLaid, blocksTotal⟩ := laid_of_puffLayout secondShows blocksRun
  rw [split, cut] at blocksLaid
  have counts : puffGroups.map List.length =
      (extents.map (blocksWithin content)).map List.length := by
    rw [map_length_groups filled groupSizes, List.map_map]
    rfl
  have sizes := (map_totalLength_groups filled groupSizes).trans streamSizes.symm
  obtain ⟨drifts, agree⟩ := streamsLaid.agree blocksLaid tiled counts sizes rfl
  exact ⟨byStreams, byBlocks, firstFinal, secondFinal, _, puffGroups, streamsRun, blocksRun,
    by omega, split, tiled, cut, counts, agree⟩

/-- Two blocks that meet inside a byte, with an empty stream behind them. -/
theorem puffLayout_streams_blocks_unaligned :
    ∃ byStreams byBlocks firstFinal secondFinal,
      puffLayout [⟨0, 56⟩, ⟨56, 0⟩]
        (start PuffEncoder.mk (BufferStream.reading #[2, 4, 1, 0, 254, 255, 97])) =
          .ok byStreams firstFinal ∧
      puffLayout [⟨0, 10⟩, ⟨10, 46⟩]
        (start PuffEncoder.mk (BufferStream.reading #[2, 4, 1, 0, 254, 255, 97])) =
          .ok byBlocks secondFinal ∧
      byStreams.size = byBlocks.size := by
  obtain ⟨after, ended⟩ := deflateBlocks_unaligned
  obtain ⟨content, readable, shows, -, agree⟩ :=
    puffLayout_streams_blocks (by decide) ended (by decide)
  obtain ⟨byStreams, byBlocks, firstFinal, secondFinal, -, -, streamsRun, blocksRun, size, -⟩ :=
    agree _ _ shows shows
  exact ⟨byStreams, byBlocks, firstFinal, secondFinal, streamsRun, blocksRun, size⟩

end Survey

end DeflateAtlas
