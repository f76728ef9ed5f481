import DeflateAtlas.Proofs.Container.ZlibPayload
import DeflateAtlas.Proofs.Locate.Pipeline

/-!
# Batches are made of single calls

Deflate streams and zlib streams are split in batches, with one stream and one
encoder for all of them.  A batch gives what its items give when each is asked for
by itself, and fails as the first of them that fails.  For zlib streams, where each
header is read right before the stream behind it is split, this is also what
becomes of reading all headers first and splitting the payloads afterwards.
-/

namespace DeflateAtlas

open Survey

variable {τ σ α β : Type} [ByteStream σ] [LawfulStream σ] {content : Bytes} {readable : Bool}

/-- A survey of items gives what surveys of some of them give by themselves, on any workbenches
whose streams hold the same bytes, and fails as the first item that fails. -/
structure Independent (content : Bytes) (readable : Bool)
    (survey : List α → Survey τ σ (List β)) : Prop where
  append : ∀ {whole first second : Workbench τ σ}, Shows whole.stream content readable →
    Shows first.stream content readable → Shows second.stream content readable →
    ∀ items others, (survey (items ++ others)).answer whole =
      (survey items).answer first >>= fun results =>
        (survey others).answer second >>= fun otherResults => pure (results ++ otherResults)
  error_iff : ∀ {whole single : Workbench τ σ}, Shows whole.stream content readable →
    Shows single.stream content readable → ∀ items failure,
      (survey items).answer whole = .error failure ↔
        ∃ before item behind, items = before ++ item :: behind ∧
          (∀ earlier ∈ before, ∃ results, (survey [earlier]).answer single = .ok results) ∧
          (survey [item]).answer single = .error failure

/-- On a stream that holds the bytes, a survey does one thing for each item in turn, and doing it
again has the same answer. -/
structure InTurn (content : Bytes) (readable : Bool) (survey : List α → Survey τ σ (List β))
    (action : α → Survey τ σ (List β)) : Prop where
  repeatable : ∀ item, Repeatable content readable (action item)
  each : ∀ {bench : Workbench τ σ}, Shows bench.stream content readable → ∀ items,
    survey items bench = inTurn action items bench

namespace InTurn

variable {survey : List α → Survey τ σ (List β)} {action : α → Survey τ σ (List β)}
  (turns : InTurn content readable survey action)
include turns

theorem answer_eq {bench fresh : Workbench τ σ} (shows : Shows bench.stream content readable)
    (freshShows : Shows fresh.stream content readable) (items : List α) :
    (survey items).answer bench = inTurn (fun item => (action item).answer fresh) items := by
  rw [answer, outcome, turns.each shows items]
  exact answer_inTurn turns.repeatable shows freshShows items

theorem answer_singleton {bench : Workbench τ σ} (shows : Shows bench.stream content readable)
    (item : α) : (survey [item]).answer bench = (action item).answer bench := by
  rw [turns.answer_eq shows shows, inTurn_singleton]

theorem independent : Independent content readable survey := by
  constructor
  · intro whole first second shows firstShows secondShows items others
    rw [turns.answer_eq shows firstShows, turns.answer_eq firstShows firstShows,
      turns.answer_eq secondShows firstShows]
    exact inTurn_append items others
  · intro whole single shows singleShows items failure
    simp only [turns.answer_singleton singleShows]
    rw [turns.answer_eq shows singleShows]
    exact inTurn_eq_error_iff

end InTurn

/-! ## Where blocks lie -/

theorem Filled.within_blocks {extent : ByteExtent} {blocks : List Deflate.Block}
    (filled : Filled content extent blocks) : ∀ block ∈ blocksWithin content extent,
      extent.offset * 8 ≤ block.offset ∧ block.stop ≤ extent.stop * 8 := by
  rw [filled.blocks_eq, ← map_fst_placedBlocks]
  intro block inside
  obtain ⟨placed, isPlaced, rfl⟩ := List.mem_map.mp inside
  exact filled.within_extent placed isPlaced

/-- Blocks lie behind the header of a zlib stream and before its checksum. -/
def Zlib.Encloses (content : Bytes) (zlib : ByteExtent) (blocks : List BitExtent) : Prop :=
  ∃ header, Zlib.headerAt content zlib.offset = .ok header ∧ ∀ block ∈ blocks,
    (zlib.offset + header.size) * 8 ≤ block.offset ∧
      block.stop + Zlib.trailerSize * 8 ≤ zlib.stop * 8

theorem Zlib.encloses_of_whole [PredictableStream σ] {bench : Workbench τ σ}
    (shows : Shows bench.stream content readable)
    {zlib deflate : ByteExtent} (given : (Zlib.payload zlib).answer bench = .ok deflate)
    (whole : Whole content readable deflate) :
    Zlib.Encloses content zlib (blocksWithin content deflate) := by
  obtain ⟨after, given⟩ := answer_eq_ok_iff.mp given
  obtain ⟨header, payload⟩ := Zlib.payload_eq_ok shows given
  obtain ⟨parts, filled⟩ := whole.exists_filled
  refine ⟨header, payload.header_eq, ?_⟩
  intro block inside
  have within := filled.within_blocks block inside
  rw [← payload.offset_eq, ← payload.stop_eq, Nat.add_mul]
  omega

/-! ## Deflate streams -/

/-- The blocks that a transform reports for just the bytes of an extent, in bits from the start of
the stream. -/
def reportedBy [Transform τ] (transform : τ) (content : Bytes) (extent : ByteExtent) :
    List BitExtent :=
  let data := BitSource.ofBytes (content.slice extent.offset extent.length)
  (Transform.run transform data Puff.Sink.measuring).1.blocks.map (·.shift (extent.offset * 8))

theorem reportedBy_eq [Transform τ] [Encodes τ] (transform : τ) :
    reportedBy transform content = blocksWithin content := by
  funext extent
  rw [reportedBy, Encodes.run_eq, blocksWithin, wholeRun]

variable [PredictableStream σ] [Transform τ] [Encodes τ]

theorem inTurn_deflateBlocks : InTurn content readable
    (deflateBlocks : List ByteExtent → Survey τ σ (List BitExtent))
    (blocksOfExtent content.size) where
  repeatable := repeats_blocksOfExtent
  each shows _ := bind_of_ok (size_of_shows shows)

theorem repeats_deflateBlocks {υ : Type} [Transform υ] [Encodes υ] (extents : List ByteExtent) :
    Repeats (Alike content readable) (Alike content readable)
      (deflateBlocks extents : Survey τ σ (List BitExtent))
      (deflateBlocks extents : Survey υ σ (List BitExtent)) :=
  repeats_size (repeats_inTurn repeats_blocksOfExtent extents)

variable {bench : Workbench τ σ}

theorem deflateBlocks_of_answer (shows : Shows bench.stream content readable)
    {extents : List ByteExtent} {blocks : List BitExtent}
    (ended : (deflateBlocks extents).answer bench = .ok blocks) :
    blocks = (extents.map (blocksWithin content)).flatten ∧
      ∀ extent ∈ extents, Whole content readable extent := by
  let other : Workbench PuffEncoder σ := start .mk bench.stream
  have otherShows : Shows other.stream content readable := shows
  have same : (deflateBlocks extents).answer bench = (deflateBlocks extents).answer other :=
    answer_eq (repeats_deflateBlocks extents) ⟨shows, otherShows⟩
  rw [same, answer_eq_ok_iff] at ended
  obtain ⟨after, ended⟩ := ended
  rw [inTurn_deflateBlocks.each otherShows] at ended
  obtain ⟨groups, state, split, flattened⟩ := bind_eq_ok_iff.mp ended
  obtain ⟨rfl, whole, -⟩ := mapM_blocksOfExtent_eq_ok otherShows split
  cases flattened
  exact ⟨rfl, whole⟩

/-! ## Zlib streams -/

theorem inTurn_zlibBlocks : InTurn content readable
    (Zlib.blocks : List ByteExtent → Survey τ σ (List BitExtent)) Zlib.blocksOfStream where
  repeatable zlib := (Zlib.repeats_payload zlib).bind fun deflate => repeats_deflateBlocks [deflate]
  each _ _ := rfl

/-- Reading the header of each stream right before splitting it is the same as reading all headers
first. -/
theorem zlibBlocks_eq_ok_iff {fresh : Workbench τ σ} (shows : Shows bench.stream content readable)
    (freshShows : Shows fresh.stream content readable) {zlibs : List ByteExtent}
    {blocks : List BitExtent} :
    (Zlib.blocks zlibs).answer bench = .ok blocks ↔
      ∃ deflates, List.Forall₂ (fun zlib deflate =>
          (Zlib.payload zlib).answer fresh = .ok deflate) zlibs deflates ∧
        (deflateBlocks deflates).answer fresh = .ok blocks := by
  have steps : (fun zlib => (Zlib.blocksOfStream zlib).answer fresh) = fun zlib =>
      (Zlib.payload zlib).answer fresh >>= fun deflate =>
        (blocksOfExtent content.size deflate).answer fresh := by
    funext zlib
    rw [Zlib.blocksOfStream, answer_bind (Zlib.repeats_payload zlib)
      (fun deflate => repeats_deflateBlocks [deflate]) freshShows freshShows]
    simp only [inTurn_deflateBlocks.answer_singleton freshShows]
  rw [inTurn_zlibBlocks.answer_eq shows freshShows, steps]
  simp only [inTurn_deflateBlocks.answer_eq freshShows freshShows]
  exact inTurn_bind_eq_ok_iff

theorem zlibBlocks_encloses (shows : Shows bench.stream content readable)
    {zlibs : List ByteExtent} {blocks : List BitExtent}
    (ended : (Zlib.blocks zlibs).answer bench = .ok blocks) :
    ∃ groups, blocks = groups.flatten ∧ List.Forall₂ (Zlib.Encloses content) zlibs groups := by
  obtain ⟨deflates, payloads, split⟩ := (zlibBlocks_eq_ok_iff shows shows).mp ended
  obtain ⟨rfl, whole⟩ := deflateBlocks_of_answer shows split
  refine ⟨_, rfl, ?_⟩
  clear ended split
  induction payloads with
  | nil => exact .nil
  | cons given payloads ih =>
      rw [List.forall_mem_cons] at whole
      exact .cons (Zlib.encloses_of_whole shows given whole.1) (ih whole.2)

/-- Batches are made of single calls, whatever the encoder and the stream have been used for. -/
theorem batches_independent (τ σ : Type) [Transform τ] [Encodes τ] [ByteStream σ] [LawfulStream σ]
    [PredictableStream σ] (content : Bytes) (readable : Bool) :
    Independent content readable
        (deflateBlocks : List ByteExtent → Survey τ σ (List BitExtent)) ∧
      (∀ {bench : Workbench τ σ}, Shows bench.stream content readable → ∀ extents blocks,
        (deflateBlocks extents).answer bench = .ok blocks →
          ∀ transform : τ, blocks = (extents.map (reportedBy transform content)).flatten) ∧
      Independent content readable
        (Zlib.blocks : List ByteExtent → Survey τ σ (List BitExtent)) ∧
      (∀ {bench fresh : Workbench τ σ}, Shows bench.stream content readable →
        Shows fresh.stream content readable → ∀ zlibs blocks,
          (Zlib.blocks zlibs).answer bench = .ok blocks ↔
            ∃ deflates, List.Forall₂ (fun zlib deflate =>
                (Zlib.payload zlib).answer fresh = .ok deflate) zlibs deflates ∧
              (deflateBlocks deflates).answer fresh = .ok blocks) ∧
      ∀ {bench : Workbench τ σ}, Shows bench.stream content readable → ∀ zlibs blocks,
        (Zlib.blocks zlibs).answer bench = .ok blocks →
          ∃ groups, blocks = groups.flatten ∧
            List.Forall₂ (Zlib.Encloses content) zlibs groups := by
  refine ⟨inTurn_deflateBlocks.independent, ?_, inTurn_zlibBlocks.independent, ?_, ?_⟩
  · intro bench shows extents blocks ended transform
    rw [reportedBy_eq]
    exact (deflateBlocks_of_answer shows ended).1
  · intro bench fresh shows freshShows zlibs blocks
    exact zlibBlocks_eq_ok_iff shows freshShows
  · intro bench shows zlibs blocks ended
    exact zlibBlocks_encloses shows ended

/-- A stream that holds the letter a is split twice at once, by an encoder that has been used and
from another place than the start; a batch in which a second extent is too long fails. -/
theorem batches_independent_letter :
    let content : Bytes := #[120, 156, 1, 1, 0, 254, 255, 97, 0, 98, 0, 98]
    let bench : Workbench ReusingEncoder BufferStream :=
      start ⟨#[7, 7]⟩ { BufferStream.reading content with place := 9 }
    (deflateBlocks [⟨2, 6⟩, ⟨2, 6⟩]).answer bench = .ok [⟨16, 48⟩, ⟨16, 48⟩] ∧
      (deflateBlocks [⟨2, 6⟩, ⟨7, 6⟩]).answer bench = .error .deflateExtentPastEnd ∧
      (Zlib.blocks [⟨0, 12⟩]).answer bench = .ok [⟨16, 48⟩] := by
  intro content bench
  have shows : Shows bench.stream content true := ⟨9, rfl⟩
  have valid : Deflate.BlocksValid 16 [⟨.stored 0 #[97], some 0⟩] :=
    Deflate.blocksValid_stored 16 (by decide)
  have spans : (Deflate.blockSpans (2 * 8) [⟨.stored 0 #[97], some 0⟩]).map (·.extent) =
      [⟨16, 48⟩] := by decide
  have within : Extent.endsWithin ⟨2, 6⟩ content.size := by decide
  obtain ⟨whole, blocks⟩ : Whole content true ⟨2, 6⟩ ∧ blocksWithin content ⟨2, 6⟩ = _ :=
    whole_of_blocks within valid (by decide) (by decide) (.inl rfl)
  have single : (deflateBlocks [⟨2, 6⟩]).answer bench = .ok [⟨16, 48⟩] := by
    let other : Workbench PuffEncoder BufferStream := start .mk bench.stream
    have related : Alike content true bench.stream other.stream := ⟨shows, shows⟩
    obtain ⟨after, ended, -⟩ := deflateBlocks_of_whole related.2
      (List.forall_mem_singleton.mpr whole)
    rw [List.map_singleton, List.flatten_singleton, blocks, spans] at ended
    exact (answer_eq (repeats_deflateBlocks _) related).trans (answer_of_ok ended)
  obtain ⟨deflates, -, zlibs, together, -⟩ :=
    batches_independent ReusingEncoder BufferStream content true
  refine ⟨?_, ?_, ?_⟩
  · refine (deflates.append shows shows shows [⟨2, 6⟩] [⟨2, 6⟩]).trans ?_
    rw [single]
    rfl
  · refine (deflates.error_iff shows shows _ _).mpr ⟨[⟨2, 6⟩], ⟨7, 6⟩, [], rfl, ?_, rfl⟩
    exact List.forall_mem_singleton.mpr ⟨_, single⟩
  · exact (together shows shows _ _).mpr ⟨[⟨2, 6⟩], .cons (by decide +kernel) .nil, single⟩

end DeflateAtlas
