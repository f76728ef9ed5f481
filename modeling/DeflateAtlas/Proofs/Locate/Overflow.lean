import DeflateAtlas.Container.Zlib
import DeflateAtlas.Proofs.Demand
import DeflateAtlas.Proofs.Locate.Conservation
import DeflateAtlas.Proofs.Locate.Splitting
import DeflateAtlas.Proofs.Puff.Reusing

/-!
# Surveys in words

Extents come from outside, their ends are looked for in the stream, and what is
found is added up in words of 64 bits.  The surveys are written here a second
time with every such number demanded to fit its word.  In a stream of less than
2⁶¹ bytes they behave like those that count without limits: what an earlier
test lets through fits, and so does the drift of a layout, which neither the
puffs nor the bytes they replace can move far.
-/

namespace DeflateAtlas

/-- Transforms that report blocks only among the bits they have taken. -/
class ReportsTaken (τ : Type) [Transform τ] : Prop where
  stop_le : ∀ (transform : τ) (data : Bytes),
    (Transform.run transform (.ofBytes data) .measuring).1.result = .ok () →
    ∀ block ∈ (Transform.run transform (.ofBytes data) .measuring).1.blocks,
      block.stop ≤ (Transform.run transform (.ofBytes data) .measuring).1.source.offset

theorem Deflate.stop_le_of_blockSpans {position : Nat} {blocks : List Block} :
    ∀ span ∈ blockSpans position blocks,
      span.extent.stop ≤ position + (blockBits position blocks).length := by
  induction blocks generalizing position with
  | nil => exact fun _ => nofun
  | cons block blocks ih =>
      rw [blockSpans, blockBits, List.length_append, ← Nat.add_assoc]
      refine List.forall_mem_cons.mpr ⟨?_, ih⟩
      exact Nat.le_add_right (block.stop position) _

instance {τ : Type} [Transform τ] [Encodes τ] : ReportsTaken τ where
  stop_le transform data ended := by
    rw [Encodes.run_eq] at ended ⊢
    obtain ⟨blocks, after, -, -, run, taken, -⟩ :=
      PuffEncoder.encode_sound (BitSource.wellFormed_ofBytes data) rfl ended
    rw [run]
    refine List.forall_mem_map.mpr fun span inside => ?_
    have reached := taken.offset
    change span.extent.stop ≤ after.offset
    rw [reached]
    exact Deflate.stop_le_of_blockSpans span inside

instance : ReportsTaken FixedSize where
  stop_le _ _ _ := fun _ => nofun

namespace Survey

variable {τ σ : Type} [Transform τ] [ByteStream σ] (overflow : Failure)

/-! ## Layouts -/

/-- Where one puff goes, in words. -/
def placeInWords (frontier : Frontier) (deflate : BitExtent) (puffSize : Nat) :
    Survey τ σ Placement := do
  let gap : Int := if frontier.sharesByte deflate then 1 else 0
  let firstWholeByte ← signed overflow (bytesForBits deflate.offset)
  let stop ← unsigned overflow (deflate.offset + deflate.length)
  let stopByte ← signed overflow (stop / 8 : Nat)
  let wholeBytes ← signed overflow (stopByte - firstWholeByte)
  let afterGap ← signed overflow (firstWholeByte - gap)
  let puffOffset ← signed overflow (afterGap + frontier.drift)
  let written ← signed overflow puffSize
  let longer ← signed overflow (written - wholeBytes)
  let change ← signed overflow (longer - gap)
  let drift ← signed overflow (frontier.drift + change)
  return { gap, firstWholeByte, wholeBytes, puffOffset, drift }

/-- Lay out the next puff, in words. -/
def placePuffInWords (size : Nat) (frontier : Frontier) (deflate : BitExtent) :
    Survey τ σ (ByteExtent × Frontier) := do
  match deflate.byteStopWithin? size with
  | none => fail .deflateExtentPastEnd
  | some stop =>
      let previousStop ← frontier.previous.mapM fun previous =>
        unsigned overflow (previous.offset + previous.length)
      if previousStop.any (deflate.offset < ·) then
        fail .deflatesOverlap
      else
        let _ ← unsigned overflow (stop - (deflate.offset / 8 : Nat))
        let puffSize ← puffSizeOfExtent deflate stop
        let placement ← placeInWords overflow frontier deflate puffSize
        if placement.puffOffset < 0 then
          fail .negativePuffOffset
        else
          return (⟨placement.puffOffset.toNat, puffSize⟩, ⟨placement.drift, some deflate⟩)

/-- Lay out puffs in order, in words. -/
def placePuffsInWords (size : Nat) :
    (frontier : Frontier) → (deflates : List BitExtent) → Survey τ σ (List ByteExtent × Frontier)
  | frontier, [] => return ([], frontier)
  | frontier, deflate :: deflates => do
      let (puff, next) ← placePuffInWords overflow size frontier deflate
      let (puffs, last) ← placePuffsInWords size next deflates
      return (puff :: puffs, last)

/-- Where the puffs of deflate data go, in words. -/
def puffLayoutInWords (deflates : List BitExtent) : Survey τ σ PuffLayout := do
  let size ← onStream ByteStream.size
  let (puffs, frontier) ← placePuffsInWords overflow size Frontier.start deflates
  let streamSize ← signed overflow size
  let puffStreamSize ← signed overflow (streamSize + frontier.drift)
  if puffStreamSize < 0 then
    fail .negativePuffSize
  else
    return ⟨puffs, puffStreamSize.toNat⟩

/-! ## Blocks -/

/-- The blocks of the deflate stream that fills an extent, in words. -/
def blocksOfExtentInWords (size : Nat) (extent : ByteExtent) : Survey τ σ (List BitExtent) := do
  if ¬ extent.endsWithin size then
    fail .deflateExtentPastEnd
  else
    let data ← readAt extent.offset extent.length
    let transformed ← measure (BitSource.ofBytes data)
    let taken := transformed.source.offset
    let bits ← unsigned overflow (extent.length * 8)
    if taken ≠ bits then
      fail (.extentNotConsumed extent.offset extent.length taken)
    else
      transformed.blocks.mapM fun block => do
        let distance ← unsigned overflow (extent.offset * 8)
        let offset ← unsigned overflow (block.offset + distance)
        return { block with offset }

/-- The blocks of deflate streams, in words. -/
def deflateBlocksInWords (extents : List ByteExtent) : Survey τ σ (List BitExtent) := do
  let size ← onStream ByteStream.size
  let groups ← extents.mapM (blocksOfExtentInWords overflow size)
  return groups.flatten

/-- The extent of the deflate data in a zlib stream, in words. -/
def payloadInWords (zlib : ByteExtent) : Survey τ σ ByteExtent := do
  let size ← onStream ByteStream.size
  if ¬ zlib.endsWithin size then
    fail .zlibExtentPastEnd
  else
    let header ← Zlib.readHeader zlib.offset
    let least ← unsigned overflow (header.size + Zlib.trailerSize)
    if zlib.length < least then
      fail .zlibExtentTooShort
    else
      let offset ← unsigned overflow (zlib.offset + header.size)
      let length ← unsigned overflow (zlib.length - least)
      return ⟨offset, length⟩

end Survey

/-! ## What fits -/

namespace Frontier

/-- What holds of a frontier behind `count` puffs that have `total` bytes. -/
structure InWords (size total count : Nat) (frontier : Frontier) : Prop
    extends frontier.Sound size where
  drift_le : frontier.drift ≤ total + count
  addressed : ∀ previous ∈ frontier.previous, previous.stop < addressLimit

variable {size total count : Nat} {frontier : Frontier}

theorem inWords_start (size : Nat) : start.InWords size 0 0 where
  toSound := sound_start size
  drift_le := Int.le_refl 0
  addressed := nofun

theorem Sound.drift_ge (sound : frontier.Sound size) : -size ≤ frontier.drift := by
  have reached := sound.reached_nonneg
  have consumed := sound.consumed_le
  rw [Frontier.reached] at reached
  omega

/-- Deflate data that lies inside a byte counts as minus one whole byte. -/
theorem wholeBytes_place_ge (frontier : Frontier) (deflate : BitExtent) (puffSize : Nat) :
    -1 ≤ (frontier.place deflate puffSize).wholeBytes := by
  simp only [place, bytesForBits, Extent.stop]
  omega

theorem gap_place (frontier : Frontier) (deflate : BitExtent) (puffSize : Nat) :
    0 ≤ (frontier.place deflate puffSize).gap ∧ (frontier.place deflate puffSize).gap ≤ 1 := by
  simp only [place]
  split
  · decide
  · decide

end Frontier

theorem Placed.inWords {size total count : Nat} {frontier next : Frontier} {deflate : BitExtent}
    {puff : ByteExtent} (placed : Placed size frontier deflate puff next)
    (inWords : frontier.InWords size total count) :
    next.InWords size (total + puff.length) (count + 1) where
  toSound := placed.sound
  drift_le := by
    have before := inWords.drift_le
    have whole := frontier.wholeBytes_place_ge deflate puff.length
    have gap := (frontier.gap_place deflate puff.length).1
    have drift : next.drift = frontier.drift +
        (puff.length - (frontier.place deflate puff.length).wholeBytes -
          (frontier.place deflate puff.length).gap) := by
      rw [placed.next_eq]
      rfl
    omega
  addressed := by
    rw [placed.next_eq]
    rintro previous ⟨⟩
    exact placed.addressed

theorem Laid.inWords {size total count : Nat} {frontier last : Frontier}
    {deflates : List BitExtent} {puffs : List ByteExtent}
    (laid : Laid size frontier deflates puffs last) (inWords : frontier.InWords size total count) :
    last.InWords size (total + Extent.totalLength puffs) (count + deflates.length) := by
  induction laid generalizing total count with
  | nil => exact inWords
  | cons placed others ih =>
      rw [Extent.totalLength_cons, List.length_cons, ← Nat.add_assoc, Nat.add_comm _ 1,
        ← Nat.add_assoc]
      exact ih (placed.inWords inWords)

namespace Survey

variable {τ σ : Type} {size total count : Nat} {frontier : Frontier} {bench : Workbench τ σ}

/-- Every number from which a place is worked out fits, and so does the place. -/
theorem placeInWords_eq (overflow : Failure) (inWords : frontier.InWords size total count)
    (small : size < 2 ^ 61) {deflate : BitExtent} (addressed : deflate.stop < addressLimit)
    (within : bytesForBits deflate.stop ≤ size) {puffSize : Nat}
    (below : total + puffSize < 2 ^ 61) (few : count < 2 ^ 62) :
    (placeInWords overflow frontier deflate puffSize : Survey τ σ Placement) =
      pure (frontier.place deflate puffSize) := by
  have driftLeast := inWords.drift_ge
  have driftGreatest := inWords.drift_le
  have starts : bytesForBits deflate.offset ≤ size := by
    rw [bytesForBits, Extent.stop] at within
    rw [bytesForBits]
    omega
  have stops : deflate.stop / 8 ≤ size := by
    rw [bytesForBits] at within
    omega
  have whole := frontier.wholeBytes_place_ge deflate puffSize
  obtain ⟨gapLeast, gapGreatest⟩ := frontier.gap_place deflate puffSize
  have stop : ((deflate.offset : Int) + deflate.length) = deflate.stop := by
    rw [Extent.stop, Int.natCast_add]
  have limit : signedLimit = 2 ^ 63 := rfl
  simp only [Frontier.place] at whole gapLeast gapGreatest
  rw [placeInWords]
  rw [signed_eq (by omega) (by omega), pure_bind, unsigned_eq stop addressed, pure_bind,
    signed_eq (by omega) (by omega), pure_bind, signed_eq (by omega) (by omega), pure_bind,
    signed_eq (by omega) (by omega), pure_bind, signed_eq (by omega) (by omega), pure_bind,
    signed_eq (by omega) (by omega), pure_bind, signed_eq (by omega) (by omega), pure_bind,
    signed_eq (by omega) (by omega), pure_bind, signed_eq (by omega) (by omega), pure_bind]
  rfl

theorem previousStop_eq (overflow : Failure) (inWords : frontier.InWords size total count) :
    (frontier.previous.mapM fun previous =>
      (unsigned overflow (previous.offset + previous.length) : Survey τ σ Nat)) =
      pure (frontier.previous.map (·.stop)) := by
  cases previous : frontier.previous with
  | none => rfl
  | some previous' =>
      have stop : ((previous'.offset : Int) + previous'.length) = previous'.stop := by
        rw [Extent.stop, Int.natCast_add]
      rw [Option.mapM_some, unsigned_eq stop (inWords.addressed _ previous), map_pure,
        Option.map_some]

variable [Transform τ] [ByteStream σ]

theorem placePuffInWords_eq (overflow : Failure) (inWords : frontier.InWords size total count)
    (small : size < 2 ^ 61) (few : count < 2 ^ 62) {deflate : BitExtent}
    (below : ∀ puff next after, placePuff size frontier deflate bench = .ok (puff, next) after →
      total + puff.length < 2 ^ 61) :
    placePuffInWords overflow size frontier deflate bench =
      placePuff size frontier deflate bench := by
  cases found : deflate.byteStopWithin? size with
  | none => rw [placePuff_of_outside found, placePuffInWords, found]
  | some stop =>
      obtain ⟨addressed, rfl, within⟩ := Extent.byteStopWithin?_eq_some_iff.mp found
      rw [placePuffInWords, found]
      dsimp only
      rw [previousStop_eq overflow inWords, pure_bind, Option.any_map]
      by_cases inOrder : frontier.InOrder deflate
      · have length : ((bytesForBits deflate.stop : Int) - (deflate.offset / 8 : Nat)) =
            (bytesForBits deflate.stop - deflate.offset / 8 : Nat) := by
          rw [bytesForBits, Extent.stop]
          omega
        have fits : bytesForBits deflate.stop - deflate.offset / 8 < addressLimit := by
          rw [addressLimit]
          omega
        rw [placePuff_of_within found inOrder, if_neg, unsigned_eq length fits, pure_bind]
        · refine bind_congr_at rfl fun puffSize after measured => ?_
          obtain ⟨puff, next, placed, rfl⟩ :=
            exists_placed inWords.toSound addressed within inOrder puffSize
          have total := below puff next after (placePuff_eq_ok_iff.mpr ⟨placed, measured⟩)
          rw [placeInWords_eq overflow inWords small addressed within total few, pure_bind]
        · exact Frontier.inOrder_iff.mp inOrder
      · rw [placePuff_of_overlap found inOrder, if_pos]
        rwa [Frontier.inOrder_iff, Decidable.not_not] at inOrder

theorem placePuffsInWords_eq (overflow : Failure) (inWords : frontier.InWords size total count)
    (small : size < 2 ^ 61) {deflates : List BitExtent} (few : count + deflates.length ≤ 2 ^ 62)
    (below : ∀ before puffs last after, before <+: deflates →
      placePuffs size frontier before bench = .ok (puffs, last) after →
      total + Extent.totalLength puffs < 2 ^ 61) :
    placePuffsInWords overflow size frontier deflates bench =
      placePuffs size frontier deflates bench := by
  induction deflates generalizing frontier total count bench with
  | nil => rfl
  | cons deflate deflates ih =>
      rw [List.length_cons] at few
      rw [placePuffsInWords, placePuffs]
      refine bind_congr_at ?_ ?_
      · refine placePuffInWords_eq overflow inWords small (by omega) fun puff next after placed => ?_
        have only : placePuffs size frontier [deflate] bench = .ok ([puff], next) after :=
          bind_eq_ok_iff.mpr ⟨_, _, placed, rfl⟩
        have total := below [deflate] _ _ _ (List.prefix_append [deflate] deflates) only
        rwa [Extent.totalLength_cons, Extent.totalLength] at total
      · rintro ⟨puff, next⟩ after placed
        refine bind_congr_at (ih ((placePuff_eq_ok_iff.mp placed).1.inWords inWords) (by omega) ?_)
          fun _ _ _ => rfl
        intro before puffs last final begins rest
        have total := below (deflate :: before) _ _ _ (List.cons_prefix_cons.mpr ⟨rfl, begins⟩)
          (bind_eq_ok_iff.mpr ⟨_, _, placed, bind_eq_ok_iff.mpr ⟨_, _, rest, rfl⟩⟩)
        rw [Extent.totalLength_cons] at total
        omega

/-- However many of the deflate data are laid out, their puffs have less than 2⁶¹ bytes. -/
def PuffsBelow (deflates : List BitExtent) (bench : Workbench τ σ) : Prop :=
  ∀ before layout after, before <+: deflates → puffLayout before bench = .ok layout after →
    Extent.totalLength layout.puffs < 2 ^ 61

theorem puffLayoutInWords_eq (overflow : Failure) {opened : Workbench τ σ}
    (sized : onStream ByteStream.size bench = .ok size opened) (small : size < 2 ^ 61)
    {deflates : List BitExtent} (few : deflates.length ≤ 2 ^ 62)
    (below : PuffsBelow deflates bench) :
    puffLayoutInWords overflow deflates bench = puffLayout deflates bench := by
  have start := Frontier.inWords_start size
  rw [puffLayoutInWords, puffLayout]
  refine bind_congr_at rfl fun found state asked => ?_
  rw [sized] at asked
  cases asked
  have totals : ∀ before puffs last after, before <+: deflates →
      placePuffs size .start before opened = .ok (puffs, last) after →
      0 + Extent.totalLength puffs < 2 ^ 61 := by
    intro before puffs last after begins run
    have sound := (placePuffs_eq_ok run).sound start.toSound
    have nonneg : 0 ≤ (size : Int) + last.drift := by
      have drift := sound.drift_ge
      omega
    rw [Nat.zero_add]
    refine below before ⟨puffs, ((size : Int) + last.drift).toNat⟩ after begins ?_
    exact puffLayout_eq_ok_iff.mpr ⟨size, opened, last, sized, run, Int.toNat_of_nonneg nonneg⟩
  refine bind_congr_at (placePuffsInWords_eq overflow start small (by omega) totals) ?_
  rintro ⟨puffs, last⟩ after run
  have laid := placePuffs_eq_ok run
  have inWords := laid.inWords start
  have total := totals deflates puffs last after (List.prefix_refl _) run
  have least := inWords.drift_ge
  have greatest := inWords.drift_le
  have limit : signedLimit = 2 ^ 63 := rfl
  dsimp only
  rw [signed_eq (by omega) (by omega), pure_bind, signed_eq (by omega) (by omega), pure_bind]

omit [Transform τ] [ByteStream σ] in
theorem shiftInWords_eq (overflow : Failure) {distance : Nat} {blocks : List BitExtent}
    (fits : ∀ block ∈ blocks, block.offset + distance * 8 < addressLimit) :
    (blocks.mapM (fun block => do
      let distance ← unsigned overflow (distance * 8)
      let offset ← unsigned overflow (block.offset + distance)
      return { block with offset }) : Survey τ σ (List BitExtent)) =
      pure (blocks.map (·.shift (distance * 8))) := by
  induction blocks with
  | nil => rfl
  | cons block blocks ih =>
      rw [List.forall_mem_cons] at fits
      have shifted : ((block.offset : Int) + (distance * 8 : Nat)) =
          (block.offset + distance * 8 : Nat) :=
        (Int.natCast_add _ _).symm
      have moved : ((distance : Int) * 8) = (distance * 8 : Nat) := by omega
      rw [List.mapM_cons, ih fits.2, unsigned_eq moved (by omega), pure_bind,
        unsigned_eq shifted fits.1]
      rfl

omit [ByteStream σ] in
theorem stop_le_of_measure [ReportsTaken τ] {data : Bytes} {transformed : Transformed}
    {after : Workbench τ σ} (ended : measure (.ofBytes data) bench = .ok transformed after) :
    ∀ block ∈ transformed.blocks, block.stop ≤ transformed.source.offset := by
  simp only [measure] at ended
  cases result : (Transform.run bench.transform (.ofBytes data) Puff.Sink.measuring).1.result with
  | ok value =>
      rw [result] at ended
      cases ended
      exact ReportsTaken.stop_le bench.transform data result
  | error failure =>
      rw [result] at ended
      cases ended

theorem blocksOfExtentInWords_eq [ReportsTaken τ] (overflow : Failure) (small : size < 2 ^ 61)
    (extent : ByteExtent) :
    (blocksOfExtentInWords overflow size extent : Survey τ σ (List BitExtent)) =
      blocksOfExtent size extent := by
  rw [blocksOfExtentInWords, blocksOfExtent]
  by_cases ends : extent.endsWithin size
  · obtain ⟨-, within⟩ := Extent.endsWithin_iff.mp ends
    rw [Extent.stop] at within
    have bits : ((extent.length : Int) * 8) = (extent.length * 8 : Nat) := by omega
    have fits : extent.length * 8 < addressLimit := by
      rw [addressLimit]
      omega
    rw [if_neg (not_not_intro ends), if_neg (not_not_intro ends)]
    funext bench
    refine bind_congr_at rfl fun data opened _ => ?_
    refine bind_congr_at rfl fun transformed after measured => ?_
    rw [unsigned_eq bits fits, pure_bind]
    by_cases elsewhere : transformed.source.offset ≠ extent.length * 8
    · rw [if_pos elsewhere, if_pos elsewhere]
    · rw [if_neg elsewhere, if_neg elsewhere, shiftInWords_eq]
      intro block inside
      have stop := stop_le_of_measure measured block inside
      rw [Extent.stop] at stop
      rw [addressLimit]
      omega
  · rw [if_pos ends, if_pos ends]

theorem deflateBlocksInWords_eq [ReportsTaken τ] (overflow : Failure) {opened : Workbench τ σ}
    (sized : onStream ByteStream.size bench = .ok size opened) (small : size < 2 ^ 61)
    (extents : List ByteExtent) :
    deflateBlocksInWords overflow extents bench = deflateBlocks extents bench := by
  rw [deflateBlocksInWords, deflateBlocks]
  refine bind_congr_at rfl fun found state asked => ?_
  rw [sized] at asked
  cases asked
  have each : (blocksOfExtentInWords overflow size : ByteExtent → Survey τ σ _) =
      blocksOfExtent size :=
    funext (blocksOfExtentInWords_eq overflow small)
  rw [each]

omit [Transform τ] in
theorem payloadInWords_eq (overflow : Failure) {opened : Workbench τ σ}
    (sized : onStream ByteStream.size bench = .ok size opened) (small : size < 2 ^ 61)
    (zlib : ByteExtent) : payloadInWords overflow zlib bench = Zlib.payload zlib bench := by
  rw [payloadInWords, Zlib.payload]
  refine bind_congr_at rfl fun found state asked => ?_
  rw [sized] at asked
  cases asked
  by_cases ends : zlib.endsWithin size
  · obtain ⟨-, within⟩ := Extent.endsWithin_iff.mp ends
    rw [Extent.stop] at within
    rw [if_neg (not_not_intro ends), if_neg (not_not_intro ends)]
    refine bind_congr_at rfl fun header after _ => ?_
    have short : header.size ≤ 6 := by
      rw [Zlib.Header.size]
      split
      · decide
      · decide
    have least : ((header.size : Int) + Zlib.trailerSize) = (header.size + Zlib.trailerSize : Nat) :=
      (Int.natCast_add _ _).symm
    have offset : ((zlib.offset : Int) + header.size) = (zlib.offset + header.size : Nat) :=
      (Int.natCast_add _ _).symm
    have room : header.size + Zlib.trailerSize < addressLimit := by
      rw [Zlib.trailerSize, addressLimit]
      omega
    have inside : zlib.offset + header.size < addressLimit := by
      rw [addressLimit]
      omega
    have rest : zlib.length - (header.size + Zlib.trailerSize) < addressLimit := by
      rw [addressLimit]
      omega
    rw [unsigned_eq least room, pure_bind]
    by_cases short : zlib.length < header.size + Zlib.trailerSize
    · rw [if_pos short, if_pos short]
    · have length : ((zlib.length : Int) - (header.size + Zlib.trailerSize : Nat)) =
          (zlib.length - (header.size + Zlib.trailerSize) : Nat) :=
        (Int.natCast_sub (Nat.not_lt.mp short)).symm
      rw [if_neg short, if_neg short, unsigned_eq offset inside, pure_bind,
        unsigned_eq length rest, pure_bind]
  · rw [if_pos ends, if_pos ends]

end Survey

end DeflateAtlas
