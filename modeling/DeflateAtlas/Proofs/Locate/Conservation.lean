import DeflateAtlas.CommandLine
import DeflateAtlas.Proofs.Container.GzipMembers
import DeflateAtlas.Proofs.Container.ZipScan
import DeflateAtlas.Proofs.Container.ZlibPayload
import DeflateAtlas.Proofs.Locate.Agreement

/-!
# Nothing is lost between the deflate streams

The program finds the deflate streams of a file, splits them and lays out the puffs
of their blocks.  Every scanner reports streams in order that do not overlap, so
the layout never fails, and the puff stream is the file with the puffs in place of
the streams.  Behind the blocks of one stream the drift has grown by their puffs
and shrunk by the stream, wherever the blocks meet inside a byte, and so it is
behind all of them.
-/

namespace DeflateAtlas

open Deflate Puff

/-! ## Puffs in a layout -/

namespace Extent

variable {unit : AddressUnit}

theorem totalLength_cons (extent : Extent unit) (extents : List (Extent unit)) :
    totalLength (extent :: extents) = extent.length + totalLength extents :=
  rfl

theorem totalLength_append (first second : List (Extent unit)) :
    totalLength (first ++ second) = totalLength first + totalLength second := by
  change ((first ++ second).map length).sum = (first.map length).sum + (second.map length).sum
  rw [List.map_append, List.sum_append]

end Extent

namespace Laid

variable {size : Nat} {frontier last : Frontier} {deflates : List BitExtent}
  {puffs : List ByteExtent}

theorem reached_le (laid : Laid size frontier deflates puffs last) :
    frontier.reached ≤ last.reached := by
  induction laid with
  | nil => exact Int.le_refl _
  | cons placed others ih =>
      have apart := Frontier.distance_nonneg placed.inOrder
      have begins := placed.offset_eq
      rw [placed.reached_next, Extent.stop] at ih
      omega

/-- Puffs lie between the ends of the puffs before them and of those behind them. -/
theorem within_reached (laid : Laid size frontier deflates puffs last) : ∀ puff ∈ puffs,
    frontier.reached ≤ puff.offset ∧ puff.stop ≤ last.reached := by
  induction laid with
  | nil => nofun
  | @cons frontier _ _ _ first _ _ placed others ih =>
      have apart := Frontier.distance_nonneg placed.inOrder
      have begins : frontier.reached ≤ first.offset := by
        rw [placed.offset_eq]
        omega
      have ends := others.reached_le
      rw [placed.reached_next] at ends
      intro puff inside
      rcases List.mem_cons.mp inside with rfl | inside
      · exact ⟨begins, ends⟩
      · have later := ih puff inside
        rw [placed.reached_next, Extent.stop] at later
        exact ⟨by omega, later.2⟩

theorem pairwise (laid : Laid size frontier deflates puffs last) :
    puffs.Pairwise fun first second => first.stop ≤ second.offset := by
  induction laid with
  | nil => exact .nil
  | cons placed others ih =>
      refine .cons (fun puff inside => ?_) ih
      have behind := (others.within_reached puff inside).1
      rw [placed.reached_next] at behind
      exact Int.ofNat_le.mp behind

/-- Over data without gaps the place of the next puff moves by the puffs. -/
theorem puffStart_eq (laid : Laid size frontier deflates puffs last) {first final : Nat}
    (data : Extent.Consecutive first final deflates) :
    last.puffStart final = frontier.puffStart first + Extent.totalLength puffs := by
  induction laid generalizing first with
  | nil frontier =>
      obtain rfl : first = final := data
      exact (Int.add_zero _).symm
  | cons placed others ih =>
      obtain ⟨rfl, data⟩ := data
      rw [ih data, placed.puffStart_stop, Frontier.puffStart_offset, ← placed.offset_eq,
        Extent.totalLength_cons, Extent.stop]
      omega

/-- Behind the blocks of whole streams the drift is what the puffs have more than the streams. -/
theorem drift_eq {extents : List ByteExtent} {groups : List (List BitExtent)}
    (laid : Laid size frontier groups.flatten puffs last)
    (tiled : List.Forall₂ Tiled extents groups) :
    last.drift + Extent.totalLength extents = frontier.drift + Extent.totalLength puffs := by
  induction tiled generalizing frontier puffs with
  | nil =>
      cases laid
      rfl
  | @cons extent _ extents _ isTiled tiled ih =>
      obtain ⟨middle, puffsOfFirst, others, rfl, first, rest⟩ := laid.exists_append
      have moved := first.puffStart_eq isTiled.consecutive
      rw [Frontier.puffStart_mul_eight, Frontier.puffStart_mul_eight, Extent.stop] at moved
      have behind := ih rest
      rw [Extent.totalLength_cons, Extent.totalLength_append]
      omega

end Laid

/-! ## Puffs of streams in order -/

/-- There is one puff for each block, the puffs are in order and apart inside of the puff stream,
and the puff stream is as long as the stream with the puffs in place of the deflate data. -/
structure Findings.Conserves (size : Nat) (findings : Findings) : Prop where
  length_eq : findings.layout.puffs.length = findings.blocks.length
  ordered : findings.layout.puffs.Pairwise fun first second => first.stop ≤ second.offset
  inside : ∀ puff ∈ findings.layout.puffs, puff.stop ≤ findings.layout.size
  size_eq : findings.layout.size + Extent.totalLength findings.deflates =
    size + Extent.totalLength findings.layout.puffs

theorem tiled_of_filled {content : Bytes} {extents : List ByteExtent}
    {blocksOf : ByteExtent → List Block}
    (filled : ∀ extent ∈ extents, Filled content extent (blocksOf extent)) :
    List.Forall₂ Tiled extents (extents.map (blocksWithin content)) := by
  apply List.forall₂_map_right_iff.mpr
  apply List.forall₂_same.mpr
  intro extent inside
  exact (filled extent inside).tiled

namespace Survey

variable {σ : Type} [ByteStream σ] [LawfulStream σ] {content : Bytes} {readable : Bool}
  {bench after : Workbench PuffEncoder σ}

theorem conserves_of_puffLayout {extents : List ByteExtent} {blocks : List BitExtent}
    {layout : PuffLayout} (shows : Shows bench.stream content readable)
    (tiled : List.Forall₂ Tiled extents (extents.map (blocksWithin content)))
    (split : blocks = (extents.map (blocksWithin content)).flatten)
    (ended : puffLayout blocks bench = .ok layout after) :
    Findings.Conserves content.size ⟨extents, blocks, layout⟩ := by
  obtain ⟨last, laid, total⟩ := laid_of_puffLayout shows ended
  have sound := laid.sound (Frontier.sound_start content.size)
  have drift := (split ▸ laid).drift_eq tiled
  refine ⟨laid.length_eq, laid.pairwise, ?_, ?_⟩
  · intro puff inside
    have before := (laid.within_reached puff inside).2
    have consumed := sound.consumed_le
    rw [Frontier.reached] at before
    dsimp only
    omega
  · rw [Frontier.start] at drift
    dsimp only at drift ⊢
    omega

/-- Streams in order that have been split are laid out, and nothing is lost. -/
theorem puffLayout_conserves {extents : List ByteExtent} {blocks : List BitExtent}
    (shows : Shows bench.stream content readable)
    (ordered : extents.Pairwise fun first second => first.stop ≤ second.offset)
    (ended : deflateBlocks extents bench = .ok blocks after)
    (addressed : ∀ block ∈ blocks, block.stop < addressLimit) :
    ∃ layout last, puffLayout blocks after = .ok layout last ∧
      Findings.Conserves content.size ⟨extents, blocks, layout⟩ := by
  obtain ⟨found, foundReadable, shown, left, split, whole⟩ := deflateBlocks_eq_ok ended
  obtain ⟨rfl, rfl⟩ := shows.unique shown
  obtain ⟨blocksOf, filled⟩ :=
    exists_blocksOf fun extent inside => (whole extent inside).exists_filled
  have located := map_fst_placedWithin filled
  rw [← split] at located
  have placedAddressed : ∀ pair ∈ placedWithin extents blocksOf, pair.1.stop < addressLimit := by
    intro pair inside
    apply addressed
    rw [← located]
    exact List.mem_map_of_mem inside
  obtain ⟨layout, last, run, -⟩ := puffLayout_of_located left
    (readable_of_placedWithin filled fun extent inside => (whole extent inside).allowed)
    (located_placedWithin filled) placedAddressed (pairwise_placedWithin filled ordered)
  rw [located] at run
  exact ⟨layout, last, run, conserves_of_puffLayout left (tiled_of_filled filled) split run⟩

end Survey

/-! ## Files -/

namespace Zip

theorem deflates_ordered (probe : Probe) (data : Bytes) :
    (deflates probe data).Pairwise fun first second => first.stop ≤ second.offset := by
  obtain ⟨entries, leftmost, -⟩ := exists_leftmost probe data 0
  rw [deflates_of_leftmost leftmost, List.pairwise_map]
  refine leftmost.pairwise.imp_of_mem fun {first second} _ isSecond apart => ?_
  have begins := (leftmost.accepts isSecond).start
  omega

end Zip

namespace Gzip

variable {probe : Probe} {data : Bytes} {extents : List ByteExtent}

theorem exists_walk (located : deflates probe data = .ok extents) :
    ∃ walk, Walk.ofFile probe data = .ok walk ∧ walk.deflates = extents := by
  rw [deflates] at located
  cases walked : Walk.ofFile probe data with
  | error failure =>
      rw [walked] at located
      cases located
  | ok walk =>
      rw [walked] at located
      cases located
      exact ⟨walk, rfl, rfl⟩

theorem deflates_of_ofFile {walk : Walk} (walked : Walk.ofFile probe data = .ok walk) :
    deflates probe data = .ok walk.deflates := by
  rw [deflates, walked]
  rfl

theorem deflates_ordered (located : deflates probe data = .ok extents) :
    extents.Pairwise fun first second => first.stop ≤ second.offset := by
  obtain ⟨-, stop, members, -⟩ := deflates_eq_ok_iff.mp located
  exact members.pairwise.imp fun apart => by omega

end Gzip

namespace Findings

open Survey

variable {format : ContainerFormat} {data : Bytes} {deflates : List ByteExtent}
  {bench after : Workbench PuffEncoder BufferStream}

/-- Every scanner finds streams in order, and the file stays what it is. -/
theorem deflatesIn_ordered (shows : Shows bench.stream data true)
    (scanned : deflatesIn format data bench = .ok deflates after) :
    deflates.Pairwise (fun first second => first.stop ≤ second.offset) ∧
      Shows after.stream data true := by
  cases format with
  | zip =>
      obtain ⟨⟨⟩, noted, logged, scanned⟩ := bind_eq_ok_iff.mp scanned
      cases logged
      cases scanned
      exact ⟨Zip.deflates_ordered _ _, shows⟩
  | gzip =>
      rw [deflatesIn] at scanned
      cases walked : Gzip.Walk.ofFile Probe.inflating data with
      | error failure =>
          rw [walked] at scanned
          exact absurd scanned (fail_ne_ok _)
      | ok walk =>
          rw [walked] at scanned
          obtain ⟨⟨⟩, noted, logged, scanned⟩ := bind_eq_ok_iff.mp scanned
          cases logged
          cases scanned
          exact ⟨Gzip.deflates_ordered (Gzip.deflates_of_ofFile walked), shows⟩
  | zlib =>
      obtain ⟨payload, middle, read, scanned⟩ := bind_eq_ok_iff.mp scanned
      cases scanned
      obtain ⟨_, -, left, -⟩ := (Zlib.repeats_payload _ ⟨shows, shows⟩).eq_ok read
      exact ⟨List.pairwise_singleton .., left⟩

/-- Whatever file is scanned, its streams are laid out if they can be split, and nothing outside of
them is lost or counted twice.  Bits have 64-bit addresses, so a block is taken to end at one, as
every block does in a file of less than 2 ^ 61 bytes. -/
theorem survey_conserves {blocks : List BitExtent}
    {scanned split : Workbench PuffEncoder BufferStream}
    (located : deflatesIn format data (start .mk (.reading data)) = .ok deflates scanned)
    (divided : deflateBlocks deflates scanned = .ok blocks split)
    (addressed : ∀ block ∈ blocks, block.stop < addressLimit) :
    ∃ layout last, puffLayout blocks split = .ok layout last ∧
      survey format data (start .mk (.reading data)) = .ok ⟨deflates, blocks, layout⟩ last ∧
      Conserves data.size ⟨deflates, blocks, layout⟩ := by
  obtain ⟨ordered, shows⟩ := deflatesIn_ordered ⟨0, rfl⟩ located
  obtain ⟨layout, last, run, conserves⟩ :=
    puffLayout_conserves shows ordered divided addressed
  refine ⟨layout, last, run, ?_, conserves⟩
  refine bind_eq_ok_iff.mpr ⟨_, _, located, ?_⟩
  refine bind_eq_ok_iff.mpr ⟨_, _, divided, ?_⟩
  exact bind_eq_ok_iff.mpr ⟨_, _, run, rfl⟩

/-- Two gzip members that hold a letter each. -/
theorem survey_conserves_letters :
    ∃ layout last,
      survey .gzip (Gzip.lettersFile 0) (start .mk (.reading (Gzip.lettersFile 0))) =
          .ok ⟨[⟨12, 6⟩, ⟨38, 6⟩], [⟨96, 48⟩, ⟨304, 48⟩], layout⟩ last ∧
        Conserves 53 ⟨[⟨12, 6⟩, ⟨38, 6⟩], [⟨96, 48⟩, ⟨304, 48⟩], layout⟩ := by
  let data := Gzip.lettersFile 0
  have members : Gzip.Members Probe.inflating data 0 [⟨12, 6⟩, ⟨38, 6⟩] 52 := by
    have stands : Gzip.file (Gzip.letters 0) <+: data.rest 0 := List.prefix_append _ [31]
    exact Gzip.members_of_file Probe.measuresWhole_inflating (Gzip.completeStream_letters 0) stands
  have nothing : ∀ payload, ¬ Gzip.MemberAt Probe.inflating data 52 payload := by
    intro payload begins
    have behind : 52 + 10 ≤ payload.offset := begins.le_offset
    have inside : payload.stop + 8 ≤ 53 := begins.trailer
    rw [Extent.stop] at inside
    omega
  obtain ⟨walk, walked, found⟩ := Gzip.exists_walk
    (Gzip.deflates_eq_ok_iff.mpr ⟨List.cons_ne_nil _ _, 52, members, nothing⟩)
  let scanned : Workbench PuffEncoder BufferStream := ⟨.mk, .reading data, walk.events⟩
  have located : deflatesIn .gzip data (start .mk (.reading data)) =
      .ok [⟨12, 6⟩, ⟨38, 6⟩] scanned := by
    rw [deflatesIn, walked, ← found]
    rfl
  have shows : Shows scanned.stream data true := ⟨0, rfl⟩
  have valid (position : Nat) (letter : UInt8) :
      BlocksValid position [⟨.stored 0 #[letter], some 0⟩] :=
    blocksValid_stored position (by decide : 1 ≤ 65535)
  obtain ⟨first, firstBlocks⟩ : Whole data true ⟨12, 6⟩ ∧ blocksWithin data ⟨12, 6⟩ = _ :=
    whole_of_blocks (by decide) (valid _ 97) (by decide) (by decide) (.inl rfl)
  obtain ⟨second, secondBlocks⟩ : Whole data true ⟨38, 6⟩ ∧ blocksWithin data ⟨38, 6⟩ = _ :=
    whole_of_blocks (by decide) (valid _ 98) (by decide) (by decide) (.inl rfl)
  obtain ⟨after, divided, -⟩ := deflateBlocks_of_whole shows
    (List.forall_mem_cons.mpr ⟨first, List.forall_mem_singleton.mpr second⟩)
  rw [List.map_cons, List.map_singleton, firstBlocks, secondBlocks] at divided
  obtain ⟨layout, last, -, run, conserves⟩ := survey_conserves located divided (by decide)
  exact ⟨layout, last, run, conserves⟩

end Findings

end DeflateAtlas
