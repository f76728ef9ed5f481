import DeflateAtlas.Proofs.Container.Measured
import DeflateAtlas.Proofs.Locate.Splitting
import DeflateAtlas.Proofs.Puff.Refusing
import DeflateAtlas.Proofs.Puff.Writing

/-!
# Splitting what has been located

Streams are located by inflating them and split by the encoder, and the two do not
take the same data: a code with a single word of more than one bit is inflated, but
there is no decoding table for it.  Nothing else sets them apart.  So a located
stream is split, from its first byte to its last, unless its blocks go on with a
table that sends such a code; and one stream of this kind fails the survey of all
of them.
-/

namespace DeflateAtlas

open BitSource Deflate Huffman Puff

theorem Deflate.SingleLongAhead.congr {first second : Nat} (aligned : first % 8 = second % 8)
    {bits : List Bool} (ahead : SingleLongAhead first bits) : SingleLongAhead second bits := by
  obtain ⟨parsed, last, header, valid, noneFinal, long, begins⟩ := ahead
  rw [blockBits_congr aligned] at begins
  exact ⟨parsed, last, header, blocksValid_congr aligned valid, noneFinal, long, begins⟩

/-- The blocks in an extent go on with a table that sends a single word of more than one bit. -/
def SendsLong (content : Bytes) (extent : ByteExtent) : Prop :=
  SingleLongAhead (extent.offset * 8)
    (bitsOfBytes (content.slice extent.offset extent.length).toList)

/-- The encoder fails on an extent of a stream. -/
structure Refused (content : Bytes) (readable : Bool) (extent : ByteExtent) (failure : Failure) :
    Prop where
  within : extent.endsWithin content.size
  allowed : readable = true ∨ extent.length = 0
  ended : (wholeRun content extent).result = .error failure

theorem result_of_sendsLong {content : Bytes} {extent : ByteExtent}
    (long : SendsLong content extent) :
    (wholeRun content extent).result = .error .incompleteCode := by
  apply PuffEncoder.encode_of_singleLong (wellFormed_ofBytes _)
  rw [bits_ofBytes]
  exact long.congr (Nat.mul_mod_left _ _)

theorem not_whole_of_sendsLong {content : Bytes} {readable : Bool} {extent : ByteExtent}
    (long : SendsLong content extent) : ¬ Whole content readable extent := by
  intro whole
  have ended := whole.ended
  rw [result_of_sendsLong long] at ended
  cases ended

namespace Measured

variable {content : Bytes} {extent : ByteExtent}
  (measured : Measured Probe.inflating content extent)
include measured

theorem stop_le : extent.stop ≤ content.size := by
  obtain ⟨sizes, run, length⟩ := measured
  have inside := (Probe.inflating_sound run).1
  rwa [length] at inside

theorem endsWithin (addressed : content.size < addressLimit) :
    extent.endsWithin content.size :=
  Extent.endsWithin_iff.mpr ⟨Nat.lt_of_le_of_lt measured.stop_le addressed, measured.stop_le⟩

theorem whole (addressed : content.size < addressLimit) (short : ¬ SendsLong content extent) :
    Whole content true extent := by
  have within := measured.endsWithin addressed
  obtain ⟨sizes, run, length⟩ := measured
  -- The probe counts whole bytes, and the padding of the final block fills the last one.
  rcases (Probe.inflating_sound run).2 with ⟨parsed, valid, final, begins, rfl⟩ | ahead
  · have bytes := blockBits_whole final (extent.offset * 8)
    refine (whole_of_blocks within valid begins ?_ (.inl rfl)).1
    rw [← length, measurement]
    dsimp only
    omega
  · rw [length] at ahead
    exact absurd ahead short

theorem refused (addressed : content.size < addressLimit) (long : SendsLong content extent) :
    Refused content true extent .incompleteCode :=
  ⟨measured.endsWithin addressed, .inl rfl, result_of_sendsLong long⟩

/-- The encoder takes a measured stream from its first byte to its last if all of its tables are
those of codes that it knows. -/
theorem taken_iff (addressed : content.size < addressLimit) :
    ((wholeRun content extent).result = .ok () ∧
      (wholeRun content extent).source.offset = extent.length * 8) ↔ ¬ SendsLong content extent := by
  constructor
  · rintro ⟨ended, -⟩ long
    rw [result_of_sendsLong long] at ended
    cases ended
  · intro short
    have whole := measured.whole addressed short
    exact ⟨whole.ended, whole.taken⟩

end Measured

/-! ## Surveys that fail -/

namespace Survey

variable {σ : Type} [ByteStream σ] [LawfulStream σ] {bench : Workbench PuffEncoder σ}
  {content : Bytes} {readable : Bool} {failure : Failure}

theorem blocksOfExtent_of_refused {extent : ByteExtent}
    (shows : Shows bench.stream content readable)
    (refused : Refused content readable extent failure) :
    ∃ after, blocksOfExtent content.size extent bench = .error failure after := by
  have inside := (Extent.endsWithin_iff.mp refused.within).2
  obtain ⟨stream, read, -⟩ := readAt_of_shows shows inside refused.allowed
  have failed : ∃ after, measure (ofBytes (content.slice extent.offset extent.length))
      { bench with stream } = .error failure after :=
    measure_of_error (refused.ended : (Transform.run bench.transform _ _).1.result = _) stream
      bench.log
  obtain ⟨after, failed⟩ := failed
  refine ⟨after, ?_⟩
  rw [blocksOfExtent, if_neg (not_not_intro refused.within)]
  exact (bind_of_ok read).trans (bind_of_error failed)

/-- The first extent that the encoder fails on fails all of them. -/
theorem mapM_blocksOfExtent_of_refused {extents : List ByteExtent}
    (shows : Shows bench.stream content readable)
    (each : ∀ extent ∈ extents,
      Whole content readable extent ∨ Refused content readable extent failure)
    (some : ∃ extent ∈ extents, ¬ Whole content readable extent) :
    ∃ after, extents.mapM (blocksOfExtent content.size) bench = .error failure after := by
  induction extents generalizing bench with
  | nil =>
      obtain ⟨extent, inside, -⟩ := some
      cases inside
  | cons extent extents ih =>
      rw [List.forall_mem_cons] at each
      rw [List.mapM_cons]
      rcases each.1 with whole | refused
      · obtain ⟨middle, split, shows⟩ := blocksOfExtent_of_whole shows whole
        have later : ∃ extent ∈ extents, ¬ Whole content readable extent := by
          obtain ⟨other, inside, short⟩ := some
          rcases List.mem_cons.mp inside with rfl | inside
          · exact absurd whole short
          · exact ⟨other, inside, short⟩
        obtain ⟨after, failed⟩ := ih shows each.2 later
        exact ⟨after, (bind_of_ok split).trans (bind_of_error failed)⟩
      · obtain ⟨after, failed⟩ := blocksOfExtent_of_refused shows refused
        exact ⟨after, bind_of_error failed⟩

theorem deflateBlocks_of_refused {extents : List ByteExtent}
    (shows : Shows bench.stream content readable)
    (each : ∀ extent ∈ extents,
      Whole content readable extent ∨ Refused content readable extent failure)
    (some : ∃ extent ∈ extents, ¬ Whole content readable extent) :
    ∃ after, deflateBlocks extents bench = .error failure after := by
  obtain ⟨after, failed⟩ := mapM_blocksOfExtent_of_refused shows each some
  exact ⟨after, (bind_of_ok (size_of_shows shows)).trans (bind_of_error failed)⟩

end Survey

/-! ## Located streams -/

/-- Streams are split, or the encoder fails on the table of one of them. -/
structure SplitOrLong (content : Bytes) (extents : List ByteExtent)
    (outcome : Except Failure (List BitExtent)) : Prop where
  ok_iff : (∃ blocks, outcome = .ok blocks) ↔ ∀ extent ∈ extents, ¬ SendsLong content extent
  error_iff : outcome = .error .incompleteCode ↔ ∃ extent ∈ extents, SendsLong content extent

theorem Survey.splitOrLong_of_measured {σ : Type} [ByteStream σ] [LawfulStream σ]
    {bench : Workbench PuffEncoder σ} {content : Bytes} {extents : List ByteExtent}
    (shows : Shows bench.stream content true) (addressed : content.size < addressLimit)
    (measured : ∀ extent ∈ extents, Measured Probe.inflating content extent) :
    SplitOrLong content extents ((deflateBlocks extents).outcome bench).1 := by
  by_cases long : ∃ extent ∈ extents, SendsLong content extent
  · have each : ∀ extent ∈ extents,
        Whole content true extent ∨ Refused content true extent .incompleteCode := by
      intro extent inside
      by_cases long : SendsLong content extent
      · exact .inr ((measured extent inside).refused addressed long)
      · exact .inl ((measured extent inside).whole addressed long)
    have some : ∃ extent ∈ extents, ¬ Whole content true extent := by
      obtain ⟨extent, inside, long⟩ := long
      exact ⟨extent, inside, not_whole_of_sendsLong long⟩
    obtain ⟨after, failed⟩ := deflateBlocks_of_refused shows each some
    rw [outcome, failed]
    refine ⟨⟨?_, ?_⟩, iff_of_true rfl long⟩
    · rintro ⟨blocks, ⟨⟩⟩
    · intro short
      obtain ⟨extent, inside, long⟩ := long
      exact absurd long (short extent inside)
  · have short : ∀ extent ∈ extents, ¬ SendsLong content extent :=
      fun extent inside sends => long ⟨extent, inside, sends⟩
    obtain ⟨after, split, -⟩ := deflateBlocks_of_whole shows
      fun extent inside => (measured extent inside).whole addressed (short extent inside)
    rw [outcome, split]
    exact ⟨iff_of_true ⟨_, rfl⟩ short, iff_of_false nofun long⟩

theorem Zip.splitOrLong_blocks {data : Bytes} (addressed : data.size < addressLimit) :
    SplitOrLong data (deflates Probe.inflating data)
      (blocks PuffEncoder.mk Probe.inflating data).1 := by
  let bench : Workbench PuffEncoder BufferStream :=
    ⟨.mk, BufferStream.reading data, (search Probe.inflating data).log⟩
  have shows : Shows bench.stream data true := ⟨0, rfl⟩
  exact Survey.splitOrLong_of_measured shows addressed fun _ => measured_of_deflates

/-- Whatever is located in an archive or in the members of a file can be split, but for streams
with a table that sends a single word of more than one bit.  These fail all of it, and nothing else
does.  A buffer is taken to have addresses. -/
theorem split_of_located {data : Bytes} (addressed : data.size < addressLimit) :
    SplitOrLong data (Zip.deflates Probe.inflating data)
        (Zip.blocks PuffEncoder.mk Probe.inflating data).1 ∧
      (∀ extents, Gzip.deflates Probe.inflating data = .ok extents →
        ∀ {σ : Type} [ByteStream σ] [LawfulStream σ] (bench : Workbench PuffEncoder σ),
          Shows bench.stream data true →
            SplitOrLong data extents ((Survey.deflateBlocks extents).outcome bench).1) ∧
      ∀ extent, Measured Probe.inflating data extent →
        (((wholeRun data extent).result = .ok () ∧
            (wholeRun data extent).source.offset = extent.length * 8) ↔
          ¬ SendsLong data extent) := by
  refine ⟨Zip.splitOrLong_blocks addressed, ?_, ?_⟩
  · intro extents found σ _ _ bench shows
    exact Survey.splitOrLong_of_measured shows addressed fun _ => Gzip.measured_of_deflates found
  · intro extent measured
    exact measured.taken_iff addressed

/-! ## Streams that cannot be split -/

/-- A table whose distance code has a single word, and this has two bits. -/
def longDistance : DynamicHeader where
  literalCount := 257
  distanceCount := 1
  sentLengths := [0, 0, 1, 0, 0, 0, 0, 0, 0, 0, 0, 0, 0, 0, 0, 2, 0, 2]
  entries := [.manyZeros 138, .manyZeros 118, .single 1, .single 2]

theorem sendsSingleLong_longDistance : longDistance.SendsSingleLong where
  valid := by decide +kernel
  endOfBlock := by decide +kernel
  literals := .inl (.inr ⟨rfl, .inr (by decide +kernel)⟩)
  distances := .inr (by decide +kernel)
  long := .inr (by decide +kernel)

/-- A block of this table and no tokens. -/
def longStream : Bytes :=
  #[5, 192, 129, 0, 0, 0, 0, 128, 32, 127, 235, 6]

theorem blockBits_longStream {position : Nat} (aligned : position % 8 = 0) :
    blockBits position [⟨.dynamic longDistance [], some 0⟩] = bitsOfBytes longStream.toList := by
  have listed : longDistance.literalLengths[endOfBlock]? = some 1 := by decide +kernel
  have ends : tokenBits longDistance.literalLengths longDistance.distanceLengths [] = [false] := by
    rw [tokenBits, List.flatMap_nil, List.nil_append, wordBits_of_listed listed (by decide)]
    decide +kernel
  have opens : Block.openBits 0 ⟨.dynamic longDistance [], some 0⟩ =
      (bitsOfBytes longStream.toList).take 92 := by
    rw [Block.openBits, Content.bits, ends]
    decide +kernel
  rw [blockBits_congr (aligned.trans (Nat.zero_mod 8).symm), blockBits, blockBits, Block.bits, opens]
  decide +kernel

section Anywhere

variable (before after : Bytes)

theorem bits_from_longStream :
    (bitsOfBytes (before ++ longStream ++ after).toList).drop (before.size * 8) =
      bitsOfBytes longStream.toList ++ bitsOfBytes after.toList := by
  rw [Array.toList_append, Array.toList_append, bitsOfBytes_append, bitsOfBytes_append,
    List.append_assoc, List.drop_left' (by rw [length_bitsOfBytes, Array.length_toList])]

theorem inflating_longStream :
    Probe.inflating (before ++ longStream ++ after) before.size =
      .ok ⟨12, 0, Crc32.checksum #[]⟩ := by
  have bits := blockBits_longStream (Nat.mul_mod_left before.size 8)
  have begins := List.prefix_append (bitsOfBytes longStream.toList) (bitsOfBytes after.toList)
  rw [← bits_from_longStream before, ← bits] at begins
  rw [Probe.inflating_of_sendsSingleLong sendsSingleLong_longDistance begins, measurement, bits]
  rfl

theorem sendsLong_longStream : SendsLong (before ++ longStream ++ after) ⟨before.size, 12⟩ := by
  refine ⟨[], true, longDistance, trivial, nofun, sendsSingleLong_longDistance, ?_⟩
  rw [blockBits, List.nil_append, bitsOfBytes_slice, bits_from_longStream,
    List.take_left' (by rfl)]
  decide +kernel

end Anywhere

/-- An archive with the stream as its only entry. -/
def longArchive : Bytes :=
  #[80, 75, 3, 4, 20, 0, 0, 0, 8, 0, 0, 0, 0, 0, 0, 0, 0, 0, 12, 0, 0, 0, 0, 0, 0, 0, 0, 0, 0, 0] ++
    longStream ++ #[]

/-- A file with the stream in its only member. -/
def longMember : Bytes :=
  #[31, 139, 8, 0, 0, 0, 0, 0, 0, 255] ++ longStream ++ #[0, 0, 0, 0, 0, 0, 0, 0]

theorem Zip.deflates_longArchive : deflates Probe.inflating longArchive = [⟨30, 12⟩] := by
  have start : 0 + (LocalHeader.decode longArchive 0).size = 30 := by decide
  have measured : Probe.inflating longArchive 30 = _ := inflating_longStream _ _
  have judged : Candidate.judge Probe.inflating longArchive 0 =
      .entry (LocalHeader.decode longArchive 0) 30 ⟨12, 0, Crc32.checksum #[]⟩ := by
    rw [Candidate.judge, if_neg (by decide), if_neg (by decide), start, measured]
  rw [deflates, search, candidates, if_pos (by decide), if_pos (by decide), judged]
  dsimp only
  rw [candidates, if_neg (by decide)]
  rfl

theorem Gzip.deflates_longMember : deflates Probe.inflating longMember = .ok [⟨10, 12⟩] := by
  have flags : longMember.field (0 + 3) 1 = 0 := by decide
  have header : headerStop longMember 0 = .ok 10 := by
    rw [headerStop, if_neg (by decide), if_neg (by decide), if_neg (by decide), flags]
    rfl
  have measured : Probe.inflating longMember 10 = _ := inflating_longStream _ _
  have read := Member.read_of_ok header measured (by decide)
  rw [deflates_of_read read, Walk.onward, if_neg (by decide)]
  rfl

/-- The entry that cannot be decoded is not skipped. -/
theorem Zip.blocks_longArchive :
    ¬ ∀ data, ∃ blocks, (Zip.blocks PuffEncoder.mk Probe.inflating data).1 = .ok blocks := by
  intro always
  have addressed : longArchive.size < addressLimit := by decide
  have short := (splitOrLong_blocks addressed).ok_iff.mp (always longArchive)
  rw [deflates_longArchive, List.forall_mem_singleton] at short
  exact short (sendsLong_longStream _ _)

theorem split_of_located_longStream :
    (Zip.blocks PuffEncoder.mk Probe.inflating longArchive).1 = .error .incompleteCode ∧
      ((Survey.deflateBlocks [⟨10, 12⟩]).outcome
        (Survey.start PuffEncoder.mk (BufferStream.reading longMember))).1 =
          .error .incompleteCode := by
  obtain ⟨archive, -, -⟩ := @split_of_located longArchive (by decide)
  obtain ⟨-, member, -⟩ := @split_of_located longMember (by decide)
  have shows : Shows (BufferStream.reading longMember) longMember true := ⟨0, rfl⟩
  refine ⟨archive.error_iff.mpr ⟨⟨30, 12⟩, ?_, sendsLong_longStream _ _⟩,
    (member _ Gzip.deflates_longMember _ shows).error_iff.mpr
      ⟨⟨10, 12⟩, List.mem_singleton_self _, sendsLong_longStream _ _⟩⟩
  rw [Zip.deflates_longArchive]
  exact List.mem_singleton_self _

end DeflateAtlas
