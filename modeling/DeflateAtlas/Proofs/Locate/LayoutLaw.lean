import DeflateAtlas.Proofs.BitSource.View
import DeflateAtlas.Proofs.Locate.Placing

/-!
# The law of layouts

Whatever a transform does, the puffs of a layout have the sizes it wrote, and
the bytes before the first puff, between two puffs and after the last one are
as many as the bytes of the stream that no deflate data fills.  A `Recorder`
says what the transform wrote.  That the number of bytes between two puffs is
never negative means that a layout cannot fail for its arithmetic: leaving both
tests out changes nothing.
-/

namespace DeflateAtlas

/-! ## What a transform writes -/

/-- A transform with the sizes of the puffs it has written. -/
structure Recorder (τ : Type) where
  transform : τ
  sizes : List Nat

instance {τ : Type} [Transform τ] : Transform (Recorder τ) where
  run recorder source sink :=
    let (transformed, after) := Transform.run recorder.transform source sink
    (transformed, ⟨after, recorder.sizes ++ [transformed.sink.size]⟩)

/-- A workbench whose transform is recorded, after it has written puffs of some sizes. -/
def Workbench.recording {τ σ : Type} (bench : Workbench τ σ) (sizes : List Nat) :
    Workbench (Recorder τ) σ :=
  ⟨⟨bench.transform, sizes⟩, bench.stream, bench.log⟩

namespace Survey

variable {τ σ α : Type} {bench after : Workbench τ σ}

theorem onStream_recording {action : StreamAction σ α} {value : α}
    (ended : onStream action bench = .ok value after) (sizes : List Nat) :
    onStream action (bench.recording sizes) = .ok value (after.recording sizes) := by
  simp only [onStream] at ended
  simp only [onStream, Workbench.recording]
  cases run : action bench.stream with
  | ok result state =>
      rw [run] at ended
      cases ended
      rfl
  | error failure state =>
      rw [run] at ended
      cases ended

theorem onSource_recording {source : BitSource} {action : BitSource.Action α}
    {value : α × BitSource} (ended : onSource source action bench = .ok value after)
    (sizes : List Nat) :
    onSource source action (bench.recording sizes) = .ok value (after.recording sizes) := by
  rw [onSource] at ended ⊢
  cases run : action source with
  | ok result state =>
      rw [run] at ended
      cases ended
      rfl
  | error failure state =>
      rw [run] at ended
      cases ended

theorem readAt_recording [ByteStream σ] {place length : Nat} {data : Bytes}
    (ended : readAt place length bench = .ok data after) (sizes : List Nat) :
    readAt place length (bench.recording sizes) = .ok data (after.recording sizes) := by
  obtain ⟨⟨⟩, middle, sought, read⟩ := bind_eq_ok_iff.mp ended
  exact bind_eq_ok_iff.mpr
    ⟨(), _, onStream_recording sought sizes, onStream_recording read sizes⟩

/-- What is left to do once all puffs have been laid out. -/
def closeLayout (size : Nat) (puffs : List ByteExtent) (last : Frontier) : Survey τ σ PuffLayout :=
  if (size : Int) + last.drift < 0 then
    fail .negativePuffSize
  else
    return ⟨puffs, ((size : Int) + last.drift).toNat⟩

theorem closeLayout_eq_ok_iff {size : Nat} {puffs : List ByteExtent} {last : Frontier}
    {layout : PuffLayout} :
    closeLayout size puffs last bench = .ok layout after ↔
      layout.puffs = puffs ∧ (layout.size : Int) = size + last.drift ∧ bench = after := by
  rw [closeLayout]
  split
  · rename_i negative
    constructor
    · intro ended
      exact absurd ended (fail_ne_ok _)
    · rintro ⟨-, total, -⟩
      omega
  · rename_i notNegative
    constructor
    · intro ended
      cases ended
      exact ⟨rfl, Int.toNat_of_nonneg (Int.not_lt.mp notNegative), rfl⟩
    · rintro ⟨rfl, total, rfl⟩
      rw [← total, Int.toNat_natCast]
      rfl

variable [Transform τ]

theorem measure_recording {source : BitSource} {transformed : Transformed}
    (ended : measure source bench = .ok transformed after) (sizes : List Nat) :
    measure source (bench.recording sizes) =
      .ok transformed (after.recording (sizes ++ [transformed.sink.size])) := by
  simp only [measure] at ended
  simp only [measure, Workbench.recording, Transform.run]
  cases result : (Transform.run bench.transform source Puff.Sink.measuring).1.result with
  | ok value =>
      rw [result] at ended
      cases ended
      rfl
  | error failure =>
      rw [result] at ended
      cases ended

variable [ByteStream σ]

theorem puffSizeOfExtent_recording {deflate : BitExtent} {stop puffSize : Nat}
    (ended : puffSizeOfExtent deflate stop bench = .ok puffSize after) (sizes : List Nat) :
    puffSizeOfExtent deflate stop (bench.recording sizes) =
      .ok puffSize (after.recording (sizes ++ [puffSize])) := by
  obtain ⟨data, first, read, ended⟩ := bind_eq_ok_iff.mp ended
  obtain ⟨skipped, second, skip, ended⟩ := bind_eq_ok_iff.mp ended
  obtain ⟨transformed, third, measured, ended⟩ := bind_eq_ok_iff.mp ended
  by_cases elsewhere : transformed.source.bytesTouched ≠ data.size
  · rw [if_pos elsewhere] at ended
    exact absurd ended (fail_ne_ok _)
  · rw [if_neg elsewhere] at ended
    cases ended
    refine bind_eq_ok_iff.mpr ⟨data, _, readAt_recording read sizes, ?_⟩
    refine bind_eq_ok_iff.mpr ⟨skipped, _, onSource_recording skip sizes, ?_⟩
    refine bind_eq_ok_iff.mpr ⟨transformed, _, measure_recording measured sizes, ?_⟩
    rw [if_neg elsewhere]
    rfl

theorem placePuff_recording {size : Nat} {frontier next : Frontier} {deflate : BitExtent}
    {puff : ByteExtent} (ended : placePuff size frontier deflate bench = .ok (puff, next) after)
    (sizes : List Nat) :
    placePuff size frontier deflate (bench.recording sizes) =
      .ok (puff, next) (after.recording (sizes ++ [puff.length])) := by
  obtain ⟨placed, measured⟩ := placePuff_eq_ok_iff.mp ended
  exact placePuff_eq_ok_iff.mpr ⟨placed, puffSizeOfExtent_recording measured sizes⟩

theorem placePuffs_recording {size : Nat} {frontier last : Frontier} {deflates : List BitExtent}
    {puffs : List ByteExtent}
    (ended : placePuffs size frontier deflates bench = .ok (puffs, last) after)
    (sizes : List Nat) :
    placePuffs size frontier deflates (bench.recording sizes) =
      .ok (puffs, last) (after.recording (sizes ++ puffs.map (·.length))) := by
  induction deflates generalizing frontier puffs bench sizes with
  | nil =>
      cases ended
      rw [List.map_nil, List.append_nil]
      rfl
  | cons deflate deflates ih =>
      obtain ⟨⟨puff, next⟩, middle, first, ended⟩ := bind_eq_ok_iff.mp ended
      obtain ⟨⟨others, reached⟩, state, rest, ended⟩ := bind_eq_ok_iff.mp ended
      cases ended
      refine bind_eq_ok_iff.mpr ⟨_, _, placePuff_recording first sizes, ?_⟩
      refine bind_eq_ok_iff.mpr ⟨_, _, ih rest _, ?_⟩
      rw [List.append_assoc]
      rfl

theorem puffLayout_eq_ok_iff {deflates : List BitExtent} {layout : PuffLayout} :
    puffLayout deflates bench = .ok layout after ↔
      ∃ size opened last,
        onStream ByteStream.size bench = .ok size opened ∧
        placePuffs size Frontier.start deflates opened = .ok (layout.puffs, last) after ∧
        (layout.size : Int) = size + last.drift := by
  constructor
  · intro ended
    obtain ⟨size, opened, sized, ended⟩ := bind_eq_ok_iff.mp ended
    obtain ⟨⟨puffs, last⟩, state, placed, ended⟩ := bind_eq_ok_iff.mp ended
    obtain ⟨rfl, total, rfl⟩ := closeLayout_eq_ok_iff.mp ended
    exact ⟨size, opened, last, sized, placed, total⟩
  · rintro ⟨size, opened, last, sized, placed, total⟩
    refine bind_eq_ok_iff.mpr ⟨size, opened, sized, ?_⟩
    refine bind_eq_ok_iff.mpr ⟨_, after, placed, ?_⟩
    exact closeLayout_eq_ok_iff.mpr ⟨rfl, total, rfl⟩

theorem puffLayout_recording {deflates : List BitExtent} {layout : PuffLayout}
    (ended : puffLayout deflates bench = .ok layout after) (sizes : List Nat) :
    puffLayout deflates (bench.recording sizes) =
      .ok layout (after.recording (sizes ++ layout.puffs.map (·.length))) := by
  obtain ⟨size, opened, last, sized, placed, total⟩ := puffLayout_eq_ok_iff.mp ended
  exact puffLayout_eq_ok_iff.mpr
    ⟨size, _, last, onStream_recording sized sizes, placePuffs_recording placed sizes, total⟩

end Survey

/-! ## The law -/

/-- The number of bytes that the deflate data before some other shares with it. -/
def sharedBytes (previous deflate : BitExtent) : Nat :=
  if previous.stop = deflate.offset ∧ deflate.offset % 8 ≠ 0 then 1 else 0

/-- How puffs lie in a puff stream. -/
structure LayoutLaw (size : Nat) (deflates : List BitExtent) (sizes : List Nat)
    (layout : PuffLayout) : Prop where
  /-- There is one puff for each deflate data. -/
  length_eq : layout.puffs.length = deflates.length
  /-- Every puff has the size that was written. -/
  sizes_eq : layout.puffs.map (·.length) = sizes
  first : ∀ deflate ∈ deflates.head?, ∀ puff ∈ layout.puffs.head?,
    puff.offset = bytesForBits deflate.offset
  between : ∀ index previous deflate previousPuff puff,
    deflates[index]? = some previous → deflates[index + 1]? = some deflate →
    layout.puffs[index]? = some previousPuff → layout.puffs[index + 1]? = some puff →
    (puff.offset : Int) - previousPuff.stop =
        bytesForBits deflate.offset - (previous.stop / 8 : Nat) - sharedBytes previous deflate ∧
      previousPuff.stop ≤ puff.offset
  last : ∀ deflate ∈ deflates.getLast?, ∀ puff ∈ layout.puffs.getLast?,
    (layout.size : Int) - puff.stop = size - (deflate.stop / 8 : Nat) ∧ deflate.stop / 8 ≤ size
  empty : deflates = [] → layout.size = size

theorem Frontier.distance_some (previous deflate : BitExtent) (drift : Int) :
    distance ⟨drift, some previous⟩ deflate =
      bytesForBits deflate.offset - (previous.stop / 8 : Nat) - sharedBytes previous deflate := by
  simp only [distance, consumed, sharesByte, sharedBytes, Option.any_some, Bool.and_eq_true,
    beq_iff_eq, bne_iff_ne]
  split
  · rfl
  · rfl

namespace Laid

variable {size : Nat} {frontier last : Frontier} {deflates : List BitExtent}
  {puffs : List ByteExtent}

theorem head_offset (laid : Laid size frontier deflates puffs last) :
    ∀ deflate ∈ deflates.head?, ∀ puff ∈ puffs.head?,
      (puff.offset : Int) = frontier.reached + frontier.distance deflate := by
  cases laid with
  | nil => nofun
  | cons placed others =>
      rintro deflate ⟨⟩ puff ⟨⟩
      exact placed.offset_eq

theorem between (laid : Laid size frontier deflates puffs last) (index : Nat)
    {previous deflate : BitExtent} {previousPuff puff : ByteExtent}
    (first : deflates[index]? = some previous) (second : deflates[index + 1]? = some deflate)
    (firstPuff : puffs[index]? = some previousPuff) (secondPuff : puffs[index + 1]? = some puff) :
    (puff.offset : Int) - previousPuff.stop =
        bytesForBits deflate.offset - (previous.stop / 8 : Nat) - sharedBytes previous deflate ∧
      previousPuff.stop ≤ puff.offset := by
  induction laid generalizing index with
  | nil => cases first
  | cons placed others ih =>
      cases index with
      | succ index => exact ih index first second firstPuff secondPuff
      | zero =>
          cases first
          cases firstPuff
          cases others with
          | nil => cases second
          | cons next others =>
              cases second
              cases secondPuff
              have place := next.offset_eq
              have apart := Frontier.distance_nonneg next.inOrder
              rw [placed.reached_next] at place
              rw [placed.next_eq, Frontier.distance_some] at place apart
              omega

theorem getLast_stop (laid : Laid size frontier deflates puffs last) :
    ∀ deflate ∈ deflates.getLast?, ∀ puff ∈ puffs.getLast?,
      last.reached = puff.stop ∧ last.consumed = deflate.stop / 8 := by
  induction laid with
  | nil => nofun
  | cons placed others ih =>
      cases others with
      | nil =>
          rintro deflate ⟨⟩ puff ⟨⟩
          exact ⟨placed.reached_next, placed.consumed_next⟩
      | cons next others =>
          rw [List.getLast?_cons_cons, List.getLast?_cons_cons]
          exact ih

theorem law (laid : Laid size Frontier.start deflates puffs last) {total : Nat}
    (totalSize : (total : Int) = size + last.drift) :
    LayoutLaw size deflates (puffs.map (·.length)) ⟨puffs, total⟩ where
  length_eq := laid.length_eq
  sizes_eq := rfl
  first := by
    intro deflate isFirst puff isFirstPuff
    have place := laid.head_offset deflate isFirst puff isFirstPuff
    have nothingBefore : Frontier.start.reached + Frontier.start.distance deflate =
        bytesForBits deflate.offset := by
      simp [Frontier.reached, Frontier.distance, Frontier.start, Frontier.consumed,
        Frontier.sharesByte]
    rw [nothingBefore] at place
    exact Int.ofNat_inj.mp place
  between := fun index _ _ _ _ => laid.between index
  last := by
    intro deflate isLast puff isLastPuff
    obtain ⟨reached, consumed⟩ := laid.getLast_stop deflate isLast puff isLastPuff
    have inside := (laid.sound (Frontier.sound_start size)).consumed_le
    rw [Frontier.reached, consumed] at reached
    rw [consumed] at inside
    refine ⟨?_, inside⟩
    rw [totalSize]
    omega
  empty := by
    rintro rfl
    cases laid
    rw [Frontier.start, Int.add_zero] at totalSize
    exact Int.ofNat_inj.mp totalSize

end Laid

/-! ## Layouts that succeed -/

/-- The bytes of a stream that some deflate data lies in, whole or in part. -/
def touchedBytes (content : Bytes) (deflate : BitExtent) : Bytes :=
  content.slice (deflate.offset / 8) (bytesForBits deflate.stop - deflate.offset / 8)

theorem size_touchedBytes {content : Bytes} {deflate : BitExtent}
    (within : bytesForBits deflate.stop ≤ content.size) :
    (touchedBytes content deflate).size = bytesForBits deflate.stop - deflate.offset / 8 := by
  apply Bytes.size_slice
  rw [bytesForBits, Extent.stop] at within ⊢
  omega

namespace Survey

section Measured

variable {τ σ ι : Type} [Transform τ] [ByteStream σ] {extentOf : ι → BitExtent} {sizeOf : ι → Nat}
  {ready : Workbench τ σ → Prop} {items : List ι} {size : Nat} {bench : Workbench τ σ}

/-- Deflate data in order can be laid out if the size of each puff can be found. -/
theorem placePuffs_of_measured {frontier : Frontier}
    (measures : ∀ item ∈ items, ∀ bench, ready bench →
      ∃ after, puffSizeOfExtent (extentOf item) (bytesForBits (extentOf item).stop) bench =
        .ok (sizeOf item) after ∧ ready after)
    (addressed : ∀ item ∈ items, (extentOf item).stop < addressLimit)
    (within : ∀ item ∈ items, bytesForBits (extentOf item).stop ≤ size)
    (ordered : items.Pairwise fun first second => (extentOf first).stop ≤ (extentOf second).offset)
    (inOrder : ∀ item ∈ items, frontier.InOrder (extentOf item)) (sound : frontier.Sound size)
    (isReady : ready bench) :
    ∃ puffs last after,
      placePuffs size frontier (items.map extentOf) bench = .ok (puffs, last) after ∧
      puffs.map (·.length) = items.map sizeOf := by
  induction items generalizing frontier bench with
  | nil => exact ⟨[], frontier, bench, rfl, rfl⟩
  | cons item items ih =>
      have isFirst : item ∈ item :: items := List.mem_cons_self ..
      obtain ⟨middle, measured, stillReady⟩ := measures item isFirst bench isReady
      obtain ⟨puff, next, step, puffSize⟩ := exists_placed sound (addressed item isFirst)
        (within item isFirst) (inOrder item isFirst) (sizeOf item)
      rw [← puffSize] at measured
      cases ordered with
      | cons later ordered =>
          have laterInOrder : ∀ other ∈ items, next.InOrder (extentOf other) := by
            intro other inside previous isPrevious
            rw [step.next_eq] at isPrevious
            cases isPrevious
            exact later other inside
          obtain ⟨puffs, last, after, rest, sizes⟩ :=
            ih (fun other inside => measures other (.tail _ inside))
              (fun other inside => addressed other (.tail _ inside))
              (fun other inside => within other (.tail _ inside)) ordered laterInOrder
              step.sound stillReady
          refine ⟨puff :: puffs, last, after, ?_, ?_⟩
          · refine bind_eq_ok_iff.mpr ⟨_, _, placePuff_eq_ok_iff.mpr ⟨step, measured⟩, ?_⟩
            exact bind_eq_ok_iff.mpr ⟨_, _, rest, rfl⟩
          · rw [List.map_cons, List.map_cons, puffSize, sizes]

theorem puffLayout_of_measured
    (sized : onStream ByteStream.size bench = .ok size bench)
    (measures : ∀ item ∈ items, ∀ bench, ready bench →
      ∃ after, puffSizeOfExtent (extentOf item) (bytesForBits (extentOf item).stop) bench =
        .ok (sizeOf item) after ∧ ready after)
    (addressed : ∀ item ∈ items, (extentOf item).stop < addressLimit)
    (within : ∀ item ∈ items, bytesForBits (extentOf item).stop ≤ size)
    (ordered : items.Pairwise fun first second => (extentOf first).stop ≤ (extentOf second).offset)
    (isReady : ready bench) :
    ∃ layout after, puffLayout (items.map extentOf) bench = .ok layout after ∧
      layout.puffs.map (·.length) = items.map sizeOf := by
  have sound := Frontier.sound_start size
  obtain ⟨puffs, last, after, run, sizes⟩ := placePuffs_of_measured measures addressed within
    ordered (fun item _ => Frontier.inOrder_start (extentOf item)) sound isReady
  have reached := ((placePuffs_eq_ok run).sound sound).reached_nonneg
  have consumed := ((placePuffs_eq_ok run).sound sound).consumed_le
  rw [Frontier.reached] at reached
  refine ⟨⟨puffs, ((size : Int) + last.drift).toNat⟩, after, ?_, sizes⟩
  refine puffLayout_eq_ok_iff.mpr ⟨size, bench, last, sized, run, ?_⟩
  exact Int.toNat_of_nonneg (by omega)

end Measured

/-- A puff has the size that the transform writes when it takes the bytes that the deflate data
lies in. -/
theorem puffSizeOfExtent_of_run {τ σ : Type} [Transform τ] [ByteStream σ] [LawfulStream σ]
    {bench : Workbench τ σ} {content : Bytes} {readable : Bool} {deflate : BitExtent}
    {source : BitSource} (shows : Shows bench.stream content readable)
    (allowed : readable = true ∨ bytesForBits deflate.stop - deflate.offset / 8 = 0)
    (within : bytesForBits deflate.stop ≤ content.size)
    (skipped : BitSource.skip (deflate.offset % 8)
      (BitSource.ofBytes (touchedBytes content deflate)) = .ok () source)
    (ended : (Transform.run bench.transform source Puff.Sink.measuring).1.result = .ok ())
    (whole : (Transform.run bench.transform source Puff.Sink.measuring).1.source.bytesTouched =
      (touchedBytes content deflate).size) :
    ∃ after, puffSizeOfExtent deflate (bytesForBits deflate.stop) bench =
        .ok (Transform.run bench.transform source Puff.Sink.measuring).1.sink.size after ∧
      after.transform = (Transform.run bench.transform source Puff.Sink.measuring).2 ∧
      Shows after.stream content readable := by
  have inside : deflate.offset / 8 + (bytesForBits deflate.stop - deflate.offset / 8) ≤
      content.size := by
    rw [bytesForBits, Extent.stop] at within ⊢
    omega
  obtain ⟨stream, read, shown⟩ := readAt_of_shows shows inside allowed
  obtain ⟨log, measured⟩ := measure_of_ok ended stream bench.log
  refine ⟨⟨(Transform.run bench.transform source Puff.Sink.measuring).2, stream, log⟩, ?_, rfl,
    shown⟩
  refine bind_eq_ok_iff.mpr ⟨touchedBytes content deflate, _, read, ?_⟩
  refine bind_eq_ok_iff.mpr ⟨((), source), { bench with stream }, ?_, ?_⟩
  · rw [onSource, skipped]
    rfl
  · refine bind_eq_ok_iff.mpr ⟨_, _, measured, ?_⟩
    rw [if_neg (not_not_intro whole)]
    rfl

end Survey

/-! ## Layouts without the tests for negative numbers -/

namespace Survey

variable {τ σ : Type} [Transform τ] [ByteStream σ]

/-- Lay out the next puff, wherever it begins. -/
def placePuffUntested (size : Nat) (frontier : Frontier) (deflate : BitExtent) :
    Survey τ σ (ByteExtent × Frontier) := do
  match deflate.byteStopWithin? size with
  | none => fail .deflateExtentPastEnd
  | some stop =>
      if frontier.previous.any (deflate.offset < ·.stop) then
        fail .deflatesOverlap
      else
        let puffSize ← puffSizeOfExtent deflate stop
        let placement := frontier.place deflate puffSize
        return (⟨placement.puffOffset.toNat, puffSize⟩, ⟨placement.drift, some deflate⟩)

/-- Lay out puffs in order, wherever they begin. -/
def placePuffsUntested (size : Nat) :
    (frontier : Frontier) → (deflates : List BitExtent) → Survey τ σ (List ByteExtent × Frontier)
  | frontier, [] => return ([], frontier)
  | frontier, deflate :: deflates => do
      let (puff, next) ← placePuffUntested size frontier deflate
      let (puffs, last) ← placePuffsUntested size next deflates
      return (puff :: puffs, last)

/-- Where puffs go, whatever the size of the puff stream is. -/
def puffLayoutUntested (deflates : List BitExtent) : Survey τ σ PuffLayout := do
  let size ← onStream ByteStream.size
  let (puffs, frontier) ← placePuffsUntested size Frontier.start deflates
  let puffStreamSize := (size : Int) + frontier.drift
  return ⟨puffs, puffStreamSize.toNat⟩

theorem placePuff_eq_untested {size : Nat} {frontier : Frontier} (sound : frontier.Sound size)
    (deflate : BitExtent) :
    (placePuff size frontier deflate : Survey τ σ (ByteExtent × Frontier)) =
      placePuffUntested size frontier deflate := by
  cases found : deflate.byteStopWithin? size with
  | none => rw [placePuff_of_outside found, placePuffUntested, found]
  | some stop =>
      rw [placePuffUntested, found]
      dsimp only
      by_cases inOrder : frontier.InOrder deflate
      · rw [placePuff_of_within found inOrder, if_neg (Frontier.inOrder_iff.mp inOrder)]
        apply bind_congr_of_ok
        intro before puffSize after _
        have apart := Frontier.distance_nonneg inOrder
        have reached := sound.reached_nonneg
        rw [if_neg]
        rw [Frontier.puffOffset_place]
        omega
      · rw [placePuff_of_overlap found inOrder, if_pos]
        rwa [Frontier.inOrder_iff, Decidable.not_not] at inOrder

theorem placePuffs_eq_untested {size : Nat} {frontier : Frontier} (sound : frontier.Sound size)
    (deflates : List BitExtent) :
    (placePuffs size frontier deflates : Survey τ σ (List ByteExtent × Frontier)) =
      placePuffsUntested size frontier deflates := by
  induction deflates generalizing frontier with
  | nil => rfl
  | cons deflate deflates ih =>
      rw [placePuffs, placePuffsUntested, ← placePuff_eq_untested sound]
      apply bind_congr_of_ok
      intro before value after placed
      obtain ⟨puff, next⟩ := value
      dsimp only
      rw [ih (placePuff_eq_ok_iff.mp placed).1.sound]

/-- Neither the offset of a puff nor the size of a puff stream can get negative. -/
theorem puffLayout_eq_untested (deflates : List BitExtent) :
    (puffLayout deflates : Survey τ σ PuffLayout) = puffLayoutUntested deflates := by
  rw [puffLayout, puffLayoutUntested]
  apply bind_congr_of_ok
  intro before size opened _
  rw [← placePuffs_eq_untested (Frontier.sound_start size)]
  apply bind_congr_of_ok
  intro state value after placed
  obtain ⟨puffs, last⟩ := value
  have sound := (placePuffs_eq_ok placed).sound (Frontier.sound_start size)
  have reached := sound.reached_nonneg
  have consumed := sound.consumed_le
  rw [Frontier.reached] at reached
  dsimp only
  rw [if_neg]
  omega

/-- The law of layouts: a layout that ends well has the puffs that the transform has written, at
the places where the law says, and no layout fails because a number is negative. -/
theorem puffLayout_law (deflates : List BitExtent) (bench : Workbench τ σ) :
    puffLayout deflates bench = puffLayoutUntested deflates bench ∧
      ∀ size opened layout after,
        ByteStream.size bench.stream = .ok size opened →
        puffLayout deflates bench = .ok layout after →
        ∃ sizes,
          puffLayout deflates (bench.recording []) = .ok layout (after.recording sizes) ∧
          LayoutLaw size deflates sizes layout := by
  rw [puffLayout_eq_untested]
  refine ⟨rfl, ?_⟩
  intro size opened layout after sized ended
  rw [← puffLayout_eq_untested] at ended
  refine ⟨[] ++ layout.puffs.map (·.length), puffLayout_recording ended [], ?_⟩
  obtain ⟨found, state, last, asked, placed, total⟩ := puffLayout_eq_ok_iff.mp ended
  obtain rfl : found = size := by
    simp only [onStream, sized] at asked
    cases asked
    rfl
  exact (placePuffs_eq_ok placed).law total

end Survey

/-- A transform that takes all data there is and writes puffs of one size. -/
structure FixedSize where
  puffSize : Nat

instance : Transform FixedSize where
  run fixed source sink :=
    ({ result := .ok ()
       source := ⟨source.data, source.data.size, 0, 0⟩
       sink := sink.append (Array.replicate fixed.puffSize 0)
       blocks := []
       log := [] }, fixed)

namespace Survey

theorem puffSizeOfExtent_fixedSize {σ : Type} [ByteStream σ] [LawfulStream σ]
    {bench : Workbench FixedSize σ} {content : Bytes} {deflate : BitExtent}
    (shows : Shows bench.stream content true) (within : bytesForBits deflate.stop ≤ content.size) :
    ∃ after, puffSizeOfExtent deflate (bytesForBits deflate.stop) bench =
        .ok bench.transform.puffSize after ∧
      after.transform = bench.transform ∧ Shows after.stream content true := by
  have size := size_touchedBytes within
  have available :
      deflate.offset % 8 ≤ (BitSource.ofBytes (touchedBytes content deflate)).bits.length := by
    rw [BitSource.bits_ofBytes, length_bitsOfBytes, Array.length_toList, size, bytesForBits,
      Extent.stop]
    omega
  obtain ⟨source, skipped, taken⟩ :=
    BitSource.skip_of_le (BitSource.wellFormed_ofBytes _) available
  have kept : source.data = touchedBytes content deflate := taken.data
  have whole : (Transform.run bench.transform source Puff.Sink.measuring).1.source.bytesTouched =
      (touchedBytes content deflate).size := by
    change bytesForBits (source.data.size * 8 - 0) = _
    rw [kept, bytesForBits]
    omega
  have written : (Transform.run bench.transform source Puff.Sink.measuring).1.sink.size =
      bench.transform.puffSize := by
    simp [Transform.run, Puff.Sink.measuring, Puff.Sink.append, Puff.Sink.size, Puff.Sink.runSize]
  have run := puffSizeOfExtent_of_run shows (.inl rfl) within skipped rfl whole
  rwa [written] at run

/-- Two deflate data that share a byte. -/
theorem puffLayout_law_sharing :
    ∃ sizes layout, LayoutLaw 3 [⟨3, 8⟩, ⟨11, 2⟩] sizes layout := by
  let bench : Workbench FixedSize BufferStream := start ⟨5⟩ (BufferStream.reading #[1, 2, 3])
  have shows : Shows bench.stream #[1, 2, 3] true := ⟨0, rfl⟩
  let ready (bench : Workbench FixedSize BufferStream) : Prop :=
    bench.transform = ⟨5⟩ ∧ Shows bench.stream #[1, 2, 3] true
  have within : ∀ deflate ∈ ([⟨3, 8⟩, ⟨11, 2⟩] : List BitExtent),
      deflate.stop < addressLimit ∧ bytesForBits deflate.stop ≤ 3 := by
    decide
  have measures : ∀ deflate ∈ ([⟨3, 8⟩, ⟨11, 2⟩] : List BitExtent), ∀ bench, ready bench →
      ∃ after, puffSizeOfExtent deflate (bytesForBits deflate.stop) bench = .ok 5 after ∧
        ready after := by
    intro deflate inside bench isReady
    obtain ⟨fixed, shows⟩ := isReady
    obtain ⟨after, run, unchanged, shown⟩ :=
      puffSizeOfExtent_fixedSize shows (within deflate inside).2
    rw [fixed] at run unchanged
    exact ⟨after, run, unchanged, shown⟩
  obtain ⟨layout, after, ended, -⟩ := puffLayout_of_measured (size_of_shows shows) measures
    (fun deflate inside => (within deflate inside).1)
    (fun deflate inside => (within deflate inside).2) (by decide) ⟨rfl, shows⟩
  rw [List.map_id'] at ended
  obtain ⟨sizes, -, law⟩ :=
    (puffLayout_law [⟨3, 8⟩, ⟨11, 2⟩] bench).2 3 _ layout after rfl ended
  exact ⟨sizes, layout, law⟩

end Survey

end DeflateAtlas
