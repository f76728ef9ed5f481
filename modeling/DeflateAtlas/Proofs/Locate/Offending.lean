import DeflateAtlas.Proofs.Locate.Overflow

/-!
# Extents that are refused

Whether an extent lies in the stream, and behind the one before it, is settled
before anything is done for it.  So a survey that comes to an offending extent
stops where the earlier ones have left it, and the transform has been called
once for each of those.
-/

namespace DeflateAtlas

theorem Extent.byteStopWithin?_eq_none {extent : BitExtent} {size : Nat}
    (outside : addressLimit ≤ extent.stop ∨ size < bytesForBits extent.stop) :
    extent.byteStopWithin? size = none := by
  cases found : extent.byteStopWithin? size with
  | none => rfl
  | some stop =>
      obtain ⟨addressed, rfl, within⟩ := byteStopWithin?_eq_some_iff.mp found
      omega

theorem Extent.not_endsWithin {extent : ByteExtent} {size : Nat}
    (outside : addressLimit ≤ extent.stop ∨ size < extent.stop) : ¬ extent.endsWithin size := by
  rw [endsWithin_iff]
  omega

theorem Laid.previous_eq {size : Nat} {frontier last : Frontier} {deflates : List BitExtent}
    {puffs : List ByteExtent} (laid : Laid size frontier deflates puffs last) :
    last.previous = deflates.getLast?.or frontier.previous := by
  induction laid with
  | nil => rfl
  | cons placed others ih =>
      rw [ih, placed.next_eq, List.getLast?_cons]
      cases List.getLast? _ with
      | none => rfl
      | some last => rfl

namespace Survey

variable {τ σ α β : Type} {bench opened reached after : Workbench τ σ} {failure : Failure}

/-- A survey, whether its transform is recorded or not, fails with what some workbench has become,
after the transform has been called a number of times. -/
def StopsAfter (calls : Nat) (kind : FailureKind) (bench reached : Workbench τ σ)
    (survey : Survey τ σ α) (recorded : Survey (Recorder τ) σ α) : Prop :=
  ∃ failure sizes, failure.kind = kind ∧ survey bench = .error failure reached ∧
    recorded (bench.recording []) = .error failure (reached.recording sizes) ∧
    sizes.length = calls

theorem fail_of_silent (silent : failure.events = []) :
    (fail failure : Survey τ σ α) bench = .error failure bench := by
  obtain ⟨transform, stream, log⟩ := bench
  change EStateM.Result.error failure (⟨transform, stream, log ++ failure.events⟩ : Workbench τ σ) = _
  rw [silent, List.append_nil]

/-- A traversal fails with the first item that fails. -/
theorem mapM_of_refused {action : α → Survey τ σ β} {before : List α} {results : List β} {item : α}
    (earlier : before.mapM action bench = .ok results reached)
    (refused : action item reached = .error failure after) (behind : List α) :
    (before ++ item :: behind).mapM action bench = .error failure after := by
  rw [List.mapM_append, bind_of_ok earlier, List.mapM_cons]
  exact bind_of_error (bind_of_error refused)

variable [Transform τ] [ByteStream σ] {size : Nat}

/-! ## Layouts -/

theorem placePuffs_of_refused {frontier next : Frontier} {before : List BitExtent}
    {puffs : List ByteExtent} {deflate : BitExtent}
    (earlier : placePuffs size frontier before bench = .ok (puffs, next) reached)
    (refused : placePuff size next deflate reached = .error failure after)
    (behind : List BitExtent) :
    placePuffs size frontier (before ++ deflate :: behind) bench = .error failure after := by
  induction before generalizing frontier puffs bench with
  | nil =>
      cases earlier
      exact bind_of_error refused
  | cons first before ih =>
      obtain ⟨⟨puff, middle⟩, state, placed, earlier⟩ := bind_eq_ok_iff.mp earlier
      obtain ⟨⟨others, last⟩, other, rest, earlier⟩ := bind_eq_ok_iff.mp earlier
      cases earlier
      exact (bind_of_ok placed).trans (bind_of_error (ih rest))

/-- Deflate data is refused by itself and what comes right before it. -/
theorem puffLayout_of_refused {before : List BitExtent} {layout : PuffLayout} {deflate : BitExtent}
    (sized : onStream ByteStream.size bench = .ok size opened)
    (earlier : puffLayout before bench = .ok layout reached)
    (refused : ∀ last : Frontier, last.previous = before.getLast? →
      placePuff size last deflate reached = .error failure after)
    (behind : List BitExtent) :
    puffLayout (before ++ deflate :: behind) bench = .error failure after := by
  obtain ⟨found, state, last, asked, placed, -⟩ := puffLayout_eq_ok_iff.mp earlier
  rw [sized] at asked
  cases asked
  have previous := (placePuffs_eq_ok placed).previous_eq
  rw [Frontier.start, Option.or_none] at previous
  exact (bind_of_ok sized).trans
    (bind_of_error (placePuffs_of_refused placed (refused last previous) behind))

theorem puffLayout_stopsAfter {before : List BitExtent} {layout : PuffLayout} {deflate : BitExtent}
    (failure : Failure) {kind : FailureKind} (isKind : failure.kind = kind)
    (sized : onStream ByteStream.size bench = .ok size opened)
    (earlier : puffLayout before bench = .ok layout reached)
    (refused : ∀ {υ : Type} [Transform υ] (state : Workbench υ σ) (last : Frontier),
      last.previous = before.getLast? → placePuff size last deflate state = .error failure state)
    (behind : List BitExtent) :
    StopsAfter before.length kind bench reached
      (puffLayout (before ++ deflate :: behind)) (puffLayout (before ++ deflate :: behind)) := by
  refine ⟨failure, [] ++ layout.puffs.map (·.length), isKind, ?_, ?_, ?_⟩
  · exact puffLayout_of_refused sized earlier (refused reached) behind
  · exact puffLayout_of_refused (onStream_recording sized []) (puffLayout_recording earlier [])
      (refused _) behind
  · obtain ⟨_, _, _, -, placed, -⟩ := puffLayout_eq_ok_iff.mp earlier
    rw [List.nil_append, List.length_map, (placePuffs_eq_ok placed).length_eq]

theorem placePuff_of_outOfBounds {deflate : BitExtent}
    (outside : addressLimit ≤ deflate.stop ∨ size < bytesForBits deflate.stop)
    (frontier : Frontier) :
    placePuff size frontier deflate bench = .error .deflateExtentPastEnd bench := by
  rw [placePuff_of_outside (Extent.byteStopWithin?_eq_none outside)]
  exact fail_of_silent rfl

theorem placePuff_of_disorder {frontier : Frontier} {previous deflate : BitExtent}
    (addressed : deflate.stop < addressLimit) (within : bytesForBits deflate.stop ≤ size)
    (isPrevious : frontier.previous = some previous) (early : deflate.offset < previous.stop) :
    placePuff size frontier deflate bench = .error .deflatesOverlap bench := by
  have found := Extent.byteStopWithin?_eq_some_iff.mpr ⟨addressed, rfl, within⟩
  have disorder : ¬ frontier.InOrder deflate := fun inOrder =>
    Nat.not_le_of_lt early (inOrder previous isPrevious)
  rw [placePuff_of_overlap found disorder]
  exact fail_of_silent rfl

/-! ## Blocks -/

theorem blocksOfExtent_recording {extent : ByteExtent} {blocks : List BitExtent}
    (ended : blocksOfExtent size extent bench = .ok blocks after) (sizes : List Nat) :
    ∃ puffSize, blocksOfExtent size extent (bench.recording sizes) =
      .ok blocks (after.recording (sizes ++ [puffSize])) := by
  rw [blocksOfExtent] at ended
  by_cases ends : extent.endsWithin size
  · rw [if_neg (not_not_intro ends)] at ended
    obtain ⟨data, first, read, ended⟩ := bind_eq_ok_iff.mp ended
    obtain ⟨transformed, second, measured, ended⟩ := bind_eq_ok_iff.mp ended
    by_cases elsewhere : transformed.source.offset ≠ extent.length * 8
    · rw [if_pos elsewhere] at ended
      exact absurd ended (fail_ne_ok _)
    · rw [if_neg elsewhere] at ended
      cases ended
      refine ⟨transformed.sink.size, ?_⟩
      rw [blocksOfExtent, if_neg (not_not_intro ends)]
      refine bind_eq_ok_iff.mpr ⟨data, _, readAt_recording read sizes, ?_⟩
      refine bind_eq_ok_iff.mpr ⟨transformed, _, measure_recording measured sizes, ?_⟩
      rw [if_neg elsewhere]
      rfl
  · rw [if_pos ends] at ended
    exact absurd ended (fail_ne_ok _)

theorem mapM_blocksOfExtent_recording {extents : List ByteExtent} {groups : List (List BitExtent)}
    (ended : extents.mapM (blocksOfExtent size) bench = .ok groups after) (sizes : List Nat) :
    ∃ more, extents.mapM (blocksOfExtent size) (bench.recording sizes) =
        .ok groups (after.recording (sizes ++ more)) ∧ more.length = extents.length := by
  induction extents generalizing groups bench sizes with
  | nil =>
      cases ended
      exact ⟨[], by rw [List.append_nil]; rfl, rfl⟩
  | cons extent extents ih =>
      rw [List.mapM_cons] at ended
      obtain ⟨blocks, first, split, ended⟩ := bind_eq_ok_iff.mp ended
      obtain ⟨others, second, rest, ended⟩ := bind_eq_ok_iff.mp ended
      cases ended
      obtain ⟨puffSize, splitRecorded⟩ := blocksOfExtent_recording split sizes
      obtain ⟨more, restRecorded, calls⟩ := ih rest (sizes ++ [puffSize])
      refine ⟨puffSize :: more, ?_, congrArg Nat.succ calls⟩
      rw [List.append_assoc] at restRecorded
      rw [List.mapM_cons]
      exact bind_eq_ok_iff.mpr ⟨_, _, splitRecorded, bind_eq_ok_iff.mpr ⟨_, _, restRecorded, rfl⟩⟩

theorem blocksOfExtent_of_outOfBounds {extent : ByteExtent}
    (outside : addressLimit ≤ extent.stop ∨ size < extent.stop) :
    blocksOfExtent size extent bench = .error .deflateExtentPastEnd bench := by
  rw [blocksOfExtent, if_pos (Extent.not_endsWithin outside)]
  exact fail_of_silent rfl

theorem deflateBlocks_stopsAfter {before : List ByteExtent} {spans : List BitExtent}
    {extent : ByteExtent} (sized : onStream ByteStream.size bench = .ok size opened)
    (earlier : deflateBlocks before bench = .ok spans reached)
    (outside : addressLimit ≤ extent.stop ∨ size < extent.stop) (behind : List ByteExtent) :
    StopsAfter before.length .outOfBounds bench reached
      (deflateBlocks (before ++ extent :: behind)) (deflateBlocks (before ++ extent :: behind)) := by
  obtain ⟨found, state, asked, ended⟩ := bind_eq_ok_iff.mp earlier
  rw [sized] at asked
  cases asked
  obtain ⟨groups, last, split, ended⟩ := bind_eq_ok_iff.mp ended
  cases ended
  obtain ⟨sizes, splitRecorded, calls⟩ := mapM_blocksOfExtent_recording split []
  refine ⟨.deflateExtentPastEnd, [] ++ sizes, rfl, ?_, ?_, calls⟩
  · exact (bind_of_ok sized).trans
      (bind_of_error (mapM_of_refused split (blocksOfExtent_of_outOfBounds outside) behind))
  · exact (bind_of_ok (onStream_recording sized [])).trans
      (bind_of_error (mapM_of_refused splitRecorded (blocksOfExtent_of_outOfBounds outside) behind))

/-! ## Any extents -/

omit [Transform τ] in
theorem payload_of_outOfBounds {zlib : ByteExtent}
    (sized : onStream ByteStream.size bench = .ok size opened)
    (outside : addressLimit ≤ zlib.stop ∨ size < zlib.stop) :
    Zlib.payload zlib bench = .error .zlibExtentPastEnd opened := by
  refine (bind_of_ok sized).trans ?_
  rw [if_pos (Extent.not_endsWithin outside)]
  exact fail_of_silent rfl

/-- Whatever extents a stream is searched in, all numbers fit their words, and an offending extent
ends the search before the transform is called for it.  There cannot be as many as 2⁶² extents, as
these alone would have more than 2⁶⁴ bytes. -/
theorem surveys_of_any_extents [ReportsTaken τ]
    (sized : onStream ByteStream.size bench = .ok size opened) (small : size < 2 ^ 61) :
    (∀ overflow deflates, deflates.length ≤ 2 ^ 62 → PuffsBelow deflates bench →
      puffLayoutInWords overflow deflates bench = puffLayout deflates bench) ∧
    (∀ overflow extents,
      deflateBlocksInWords overflow extents bench = deflateBlocks extents bench) ∧
    (∀ overflow zlib, payloadInWords overflow zlib bench = Zlib.payload zlib bench) ∧
    (∀ before layout reached, puffLayout before bench = .ok layout reached →
      ∀ deflate behind,
        (addressLimit ≤ deflate.stop ∨ size < bytesForBits deflate.stop →
          StopsAfter before.length .outOfBounds bench reached
            (puffLayout (before ++ deflate :: behind))
            (puffLayout (before ++ deflate :: behind))) ∧
        (deflate.stop < addressLimit → bytesForBits deflate.stop ≤ size →
          ∀ previous ∈ before.getLast?, deflate.offset < previous.stop →
          StopsAfter before.length .invalidParameter bench reached
            (puffLayout (before ++ deflate :: behind))
            (puffLayout (before ++ deflate :: behind)))) ∧
    (∀ before spans reached, deflateBlocks before bench = .ok spans reached →
      ∀ extent behind, addressLimit ≤ extent.stop ∨ size < extent.stop →
        StopsAfter before.length .outOfBounds bench reached
          (deflateBlocks (before ++ extent :: behind))
          (deflateBlocks (before ++ extent :: behind))) ∧
    (∀ zlib : ByteExtent, addressLimit ≤ zlib.stop ∨ size < zlib.stop →
      StopsAfter 0 .outOfBounds bench opened (Zlib.payload zlib) (Zlib.payload zlib)) := by
  refine ⟨fun overflow deflates => puffLayoutInWords_eq overflow sized small,
    fun overflow => deflateBlocksInWords_eq overflow sized small,
    fun overflow => payloadInWords_eq overflow sized small, ?_, ?_, ?_⟩
  · intro before layout reached earlier deflate behind
    constructor
    · intro outside
      refine puffLayout_stopsAfter .deflateExtentPastEnd rfl sized earlier ?_ behind
      exact fun state last _ => placePuff_of_outOfBounds outside last
    · intro addressed within previous isPrevious early
      refine puffLayout_stopsAfter .deflatesOverlap rfl sized earlier ?_ behind
      exact fun state last same =>
        placePuff_of_disorder addressed within (same.trans isPrevious) early
  · intro before spans reached earlier extent behind outside
    exact deflateBlocks_stopsAfter sized earlier outside behind
  · intro zlib outside
    exact ⟨.zlibExtentPastEnd, [], rfl, payload_of_outOfBounds sized outside,
      payload_of_outOfBounds (onStream_recording sized []) outside, rfl⟩

/-- In a stream of three bytes, deflate data that ends at no address and deflate data that begins
too early. -/
theorem surveys_of_any_extents_after_one :
    let bench : Workbench FixedSize BufferStream := start ⟨5⟩ (BufferStream.reading #[1, 2, 3])
    ∃ layout reached, puffLayout [⟨3, 8⟩] bench = .ok layout reached ∧
      (∀ overflow, puffLayoutInWords overflow [⟨3, 8⟩] bench = puffLayout [⟨3, 8⟩] bench) ∧
      StopsAfter 1 .outOfBounds bench reached
        (puffLayout [⟨3, 8⟩, ⟨2 ^ 64 - 1, 2⟩]) (puffLayout [⟨3, 8⟩, ⟨2 ^ 64 - 1, 2⟩]) ∧
      StopsAfter 1 .invalidParameter bench reached
        (puffLayout [⟨3, 8⟩, ⟨10, 2⟩]) (puffLayout [⟨3, 8⟩, ⟨10, 2⟩]) := by
  intro bench
  have shows : Shows bench.stream #[1, 2, 3] true := ⟨0, rfl⟩
  have sized := size_of_shows shows
  let ready (bench : Workbench FixedSize BufferStream) : Prop :=
    bench.transform = ⟨5⟩ ∧ Shows bench.stream #[1, 2, 3] true
  have within : ∀ deflate ∈ ([⟨3, 8⟩] : List BitExtent),
      deflate.stop < addressLimit ∧ bytesForBits deflate.stop ≤ 3 := by
    decide
  have measures : ∀ deflate ∈ ([⟨3, 8⟩] : List BitExtent), ∀ bench, ready bench →
      ∃ after, puffSizeOfExtent deflate (bytesForBits deflate.stop) bench = .ok 5 after ∧
        ready after := by
    rintro deflate inside bench ⟨fixed, shows⟩
    obtain ⟨after, run, unchanged, shown⟩ :=
      puffSizeOfExtent_fixedSize shows (within deflate inside).2
    rw [fixed] at run unchanged
    exact ⟨after, run, unchanged, shown⟩
  obtain ⟨layout, reached, ended, sizes⟩ := puffLayout_of_measured sized measures
    (fun deflate inside => (within deflate inside).1)
    (fun deflate inside => (within deflate inside).2) (by decide) ⟨rfl, shows⟩
  rw [List.map_id'] at ended
  have below : PuffsBelow [⟨3, 8⟩] bench := by
    intro before other after begins run
    rcases List.prefix_cons_iff.mp begins with rfl | ⟨rest, rfl, nothing⟩
    · obtain ⟨_, _, _, -, placed, -⟩ := puffLayout_eq_ok_iff.mp run
      rw [List.length_eq_zero_iff.mp (placePuffs_eq_ok placed).length_eq]
      decide
    · rw [List.prefix_nil.mp nothing, ended] at run
      cases run
      rw [Extent.totalLength, sizes]
      decide
  obtain ⟨layouts, -, -, stops, -⟩ := surveys_of_any_extents sized (by decide)
  obtain ⟨noAddress, -⟩ := stops [⟨3, 8⟩] layout reached ended ⟨2 ^ 64 - 1, 2⟩ []
  obtain ⟨-, disorder⟩ := stops [⟨3, 8⟩] layout reached ended ⟨10, 2⟩ []
  exact ⟨layout, reached, ended, fun overflow => layouts overflow [⟨3, 8⟩] (by decide) below,
    noAddress (.inl (by decide)), disorder (by decide) (by decide) ⟨3, 8⟩ rfl (by decide)⟩

end Survey

end DeflateAtlas
