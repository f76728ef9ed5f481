import DeflateAtlas.Proofs.Locate.Splitting
import Mathlib.Data.List.Forall2

/-!
# Blocks tile their streams

The blocks that splitting reports come in groups, one for each byte extent and
in the order of the extents.  The blocks of a group follow one another without
a gap, from the first bit of the extent to its last, whatever the stream has
answered when it was read: only what the encoder took of the data counts.  Since
a block has at least ten bits, fewer than eight bits are never a block, and an
extent has no blocks only if it is empty.
-/

namespace DeflateAtlas

open BitSource Deflate Huffman Puff

/-! ## Extents without gaps -/

namespace Extent

variable {unit : AddressUnit}

/-- The extents fill the addresses from `first` to `last`, each beginning where the one before it
ends. -/
def Consecutive : (first last : Nat) → List (Extent unit) → Prop
  | first, last, [] => first = last
  | first, last, extent :: extents =>
      extent.offset = first ∧ Consecutive extent.stop last extents

instance decidableConsecutive : (first last : Nat) → (extents : List (Extent unit)) →
    Decidable (Consecutive first last extents)
  | first, last, [] => inferInstanceAs (Decidable (first = last))
  | first, last, extent :: extents =>
      have := decidableConsecutive extent.stop last extents
      inferInstanceAs (Decidable (extent.offset = first ∧ Consecutive extent.stop last extents))

theorem Consecutive.last_eq {first last : Nat} {extents : List (Extent unit)}
    (consecutive : Consecutive first last extents) : last = first + totalLength extents := by
  induction extents generalizing first with
  | nil => exact consecutive.symm
  | cons extent extents ih =>
      obtain ⟨begins, others⟩ := consecutive
      have behind := ih others
      rw [stop, begins] at behind
      rw [behind, Nat.add_assoc]
      rfl

end Extent

namespace Deflate

theorem consecutive_blockSpans (position : Nat) (blocks : List Block) :
    Extent.Consecutive position (position + (blockBits position blocks).length)
      ((blockSpans position blocks).map (·.extent)) := by
  induction blocks generalizing position with
  | nil => rfl
  | cons block blocks ih =>
      have others := ih (block.stop position)
      rw [Block.stop, Nat.add_assoc, ← List.length_append] at others
      exact ⟨rfl, others⟩

theorem ten_le_length_blockSpans (position : Nat) (blocks : List Block) :
    ∀ extent ∈ (blockSpans position blocks).map (·.extent), 10 ≤ extent.length := by
  induction blocks generalizing position with
  | nil => nofun
  | cons block blocks ih =>
      intro extent inside
      rcases List.mem_cons.mp inside with rfl | inside
      · exact block.ten_le_length_bits position
      · exact ih _ extent inside

end Deflate

/-! ## The blocks of an extent -/

/-- The blocks of a byte extent: they fill it, and no eight bits are a block. -/
structure Tiled (extent : ByteExtent) (blocks : List BitExtent) : Prop where
  consecutive : Extent.Consecutive (extent.offset * 8) (extent.stop * 8) blocks
  ten_le_length : ∀ block ∈ blocks, 10 ≤ block.length
  eq_nil_iff : blocks = [] ↔ extent.length = 0

theorem tiled_of_consecutive {extent : ByteExtent} {blocks : List BitExtent}
    (consecutive : Extent.Consecutive (extent.offset * 8) (extent.stop * 8) blocks)
    (long : ∀ block ∈ blocks, 10 ≤ block.length) : Tiled extent blocks where
  consecutive := consecutive
  ten_le_length := long
  eq_nil_iff := by
    have total := consecutive.last_eq
    rw [Extent.stop, Nat.add_mul, Nat.add_left_cancel_iff] at total
    cases blocks with
    | nil =>
        have none : extent.length * 8 = 0 := total
        exact iff_of_true rfl (by omega)
    | cons block blocks =>
        have first := long block (List.mem_cons_self ..)
        have some : extent.length * 8 = block.length + Extent.totalLength blocks := total
        exact iff_of_false (List.cons_ne_nil _ _) (by omega)

theorem tiled_blockSpans {extent : ByteExtent} {blocks : List Block}
    (length : (blockBits (extent.offset * 8) blocks).length = extent.length * 8) :
    Tiled extent ((blockSpans (extent.offset * 8) blocks).map (·.extent)) := by
  have consecutive := consecutive_blockSpans (extent.offset * 8) blocks
  rw [length, ← Nat.add_mul] at consecutive
  exact tiled_of_consecutive consecutive (ten_le_length_blockSpans _ blocks)

namespace Survey

/-- Each result of a run over a list is the result of a run on the item in its place. -/
theorem forall₂_of_mapM {τ σ α β : Type} {action : α → Survey τ σ β} {items : List α}
    {results : List β} {bench after : Workbench τ σ}
    (ended : items.mapM action bench = .ok results after) :
    List.Forall₂ (fun item result => ∃ before middle, action item before = .ok result middle)
      items results := by
  induction items generalizing results bench with
  | nil =>
      cases ended
      exact .nil
  | cons item items ih =>
      rw [List.mapM_cons] at ended
      obtain ⟨result, middle, first, ended⟩ := bind_eq_ok_iff.mp ended
      obtain ⟨others, state, rest, ended⟩ := bind_eq_ok_iff.mp ended
      cases ended
      exact .cons ⟨bench, middle, first⟩ (ih rest)

variable {σ : Type} [ByteStream σ] {bench after : Workbench PuffEncoder σ}

theorem tiled_of_blocksOfExtent {size : Nat} {extent : ByteExtent} {blocks : List BitExtent}
    (ended : blocksOfExtent size extent bench = .ok blocks after) : Tiled extent blocks := by
  rw [blocksOfExtent] at ended
  by_cases outside : ¬ extent.endsWithin size
  · rw [if_pos outside] at ended
    exact absurd ended (fail_ne_ok _)
  · rw [if_neg outside] at ended
    obtain ⟨data, first, -, ended⟩ := bind_eq_ok_iff.mp ended
    obtain ⟨transformed, second, measured, ended⟩ := bind_eq_ok_iff.mp ended
    obtain ⟨rfl, success, -⟩ := measure_eq_ok measured
    by_cases elsewhere :
        (PuffEncoder.encode (ofBytes data) Sink.measuring).source.offset ≠ extent.length * 8
    · rw [if_pos elsewhere] at ended
      exact absurd ended (fail_ne_ok _)
    · rw [if_neg elsewhere] at ended
      obtain ⟨parsed, -, -, length, spans, -⟩ := PuffEncoder.exists_blocks_of_taken extent.offset
        success (Decidable.not_not.mp elsewhere)
      cases ended
      rw [spans]
      exact tiled_blockSpans length

/-- Splitting any streams reports one group of blocks for each extent, which tiles it. -/
theorem deflateBlocks_tiled {extents : List ByteExtent} {blocks : List BitExtent}
    (ended : deflateBlocks extents bench = .ok blocks after) :
    ∃ groups, blocks = groups.flatten ∧ List.Forall₂ Tiled extents groups := by
  obtain ⟨size, opened, -, ended⟩ := bind_eq_ok_iff.mp ended
  obtain ⟨groups, state, split, ended⟩ := bind_eq_ok_iff.mp ended
  cases ended
  refine ⟨groups, rfl, (forall₂_of_mapM split).imp ?_⟩
  rintro extent group ⟨before, middle, ended⟩
  exact tiled_of_blocksOfExtent ended

/-- A block without tokens and one that stores the letter a. -/
def unalignedBlocks : List Block :=
  [⟨.fixed [], none⟩, ⟨.stored 0 #[97], some 0⟩]

/-- The blocks in bytes, and bytes behind them. -/
def unalignedStream (following : Bytes) : Bytes :=
  #[2, 4, 1, 0, 254, 255, 97] ++ following

theorem bits_emptyFixed :
    Block.bits 0 ⟨.fixed [], none⟩ = [false, true, false] ++ List.replicate 7 false := by
  have listed : fixedLiteralLengths[endOfBlock]? = some 7 := by decide +kernel
  have ends : tokenBits fixedLiteralLengths fixedDistanceLengths [] = List.replicate 7 false := by
    rw [tokenBits, List.flatMap_nil, List.nil_append, wordBits_of_listed listed (by decide)]
    decide +kernel
  rw [Block.bits, finalBits, List.append_nil, Block.openBits, Content.bits, ends]
  rfl

/-- The blocks fill the seven bytes, whatever follows. -/
theorem whole_unaligned (following : Bytes) :
    Whole (unalignedStream following) true ⟨0, 7⟩ ∧
      Filled (unalignedStream following) ⟨0, 7⟩ unalignedBlocks := by
  have valid : BlocksValid 0 unalignedBlocks :=
    ⟨⟨nofun, finalValid_none _⟩, fun _ => rfl, blocksValid_stored _ (by decide)⟩
  have spelled : blockBits 0 unalignedBlocks = bitsOfBytes [2, 4, 1, 0, 254, 255, 97] := by
    rw [unalignedBlocks, blockBits, Block.stop, bits_emptyFixed]
    rfl
  have begins : blockBits 0 unalignedBlocks <+:
      (bitsOfBytes (unalignedStream following).toList).drop 0 := by
    rw [spelled, unalignedStream, Array.toList_append, bitsOfBytes_append]
    exact List.prefix_append _ _
  have length : (blockBits 0 unalignedBlocks).length = 7 * 8 := congrArg List.length spelled
  have within : Extent.endsWithin ⟨0, 7⟩ (unalignedStream following).size := by
    rw [Extent.endsWithin_iff, unalignedStream, Array.size_append]
    exact ⟨by decide, Nat.le_add_right 7 _⟩
  exact ⟨(whole_of_blocks within valid begins length (.inl rfl)).1,
    filled_of_blocks within valid begins length⟩

theorem blockSpans_unaligned :
    (blockSpans 0 unalignedBlocks).map (·.extent) = [⟨0, 10⟩, ⟨10, 46⟩] := by
  rw [unalignedBlocks, blockSpans, Block.span, Block.stop, bits_emptyFixed]
  rfl

/-- An empty extent lies behind the blocks. -/
theorem deflateBlocks_unaligned :
    ∃ after,
      deflateBlocks [⟨0, 7⟩, ⟨7, 0⟩]
        (start PuffEncoder.mk (BufferStream.reading #[2, 4, 1, 0, 254, 255, 97])) =
          .ok [⟨0, 10⟩, ⟨10, 46⟩] after := by
  let bench : Workbench PuffEncoder BufferStream := start .mk (.reading (unalignedStream #[]))
  have shows : Shows bench.stream (unalignedStream #[]) true := ⟨0, rfl⟩
  obtain ⟨whole, filled⟩ := whole_unaligned #[]
  have emptyWithin : Extent.endsWithin ⟨7, 0⟩ (unalignedStream #[]).size := by decide
  have nothing : BlocksValid 56 [] := trivial
  obtain ⟨emptyWhole, emptySplit⟩ : Whole (unalignedStream #[]) true ⟨7, 0⟩ ∧
      blocksWithin (unalignedStream #[]) ⟨7, 0⟩ = [] :=
    whole_of_blocks emptyWithin nothing List.nil_prefix rfl (.inl rfl)
  obtain ⟨after, ended, -⟩ := deflateBlocks_of_whole shows
    (List.forall_mem_cons.mpr ⟨whole, List.forall_mem_singleton.mpr emptyWhole⟩)
  rw [List.map_cons, List.map_singleton, filled.blocks_eq, emptySplit] at ended
  rw [Nat.zero_mul, blockSpans_unaligned] at ended
  exact ⟨after, ended⟩

theorem deflateBlocks_tiled_unaligned :
    ∃ groups, [⟨0, 10⟩, ⟨10, 46⟩] = groups.flatten ∧
      List.Forall₂ Tiled [⟨0, 7⟩, ⟨7, 0⟩] groups := by
  obtain ⟨after, ended⟩ := deflateBlocks_unaligned
  exact deflateBlocks_tiled ended

end Survey

end DeflateAtlas
