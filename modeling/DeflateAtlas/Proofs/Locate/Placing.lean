import DeflateAtlas.Locate.PuffLayout
import DeflateAtlas.Proofs.Locate.Survey

/-!
# The steps of laying out puffs

`Placed` says once all that a step of the layout does and `Laid` what a run of
steps does; every law of layouts follows from these.  The frontier carries one
invariant: the puffs so far end at `Frontier.reached`, which the drift gives
when the bytes before the end of the last deflate data are added to it.
-/

namespace DeflateAtlas

namespace Frontier

/-- The deflate data does not begin before the data before it ends. -/
def InOrder (frontier : Frontier) (deflate : BitExtent) : Prop :=
  ∀ previous ∈ frontier.previous, previous.stop ≤ deflate.offset

theorem inOrder_iff {frontier : Frontier} {deflate : BitExtent} :
    frontier.InOrder deflate ↔ ¬ frontier.previous.any (deflate.offset < ·.stop) := by
  cases previous : frontier.previous with
  | none => simp [InOrder, previous]
  | some previous => simp [InOrder, *]

theorem inOrder_start (deflate : BitExtent) : start.InOrder deflate := by
  intro previous isPrevious
  cases isPrevious

/-- The number of bytes that are filled before the end of the deflate data so far. -/
def consumed (frontier : Frontier) : Nat :=
  match frontier.previous with
  | none => 0
  | some previous => previous.stop / 8

/-- Where the puffs so far end. -/
def reached (frontier : Frontier) : Int :=
  frontier.drift + frontier.consumed

/-- The number of bytes between the puffs so far and the puff of some deflate data. -/
def distance (frontier : Frontier) (deflate : BitExtent) : Int :=
  bytesForBits deflate.offset - frontier.consumed -
    if frontier.sharesByte deflate then 1 else 0

theorem puffOffset_place (frontier : Frontier) (deflate : BitExtent) (puffSize : Nat) :
    (frontier.place deflate puffSize).puffOffset = frontier.reached + frontier.distance deflate := by
  simp only [place, reached, distance]
  omega

/-- Each puff begins at its distance from the puffs before it and ends where its size says. -/
theorem reached_place (frontier : Frontier) (deflate : BitExtent) (puffSize : Nat) :
    reached ⟨(frontier.place deflate puffSize).drift, some deflate⟩ =
      (frontier.place deflate puffSize).puffOffset + puffSize := by
  simp only [place, reached, consumed]
  omega

/-- Data that shares a byte with the data before it leaves no byte between their puffs. -/
theorem distance_nonneg {frontier : Frontier} {deflate : BitExtent}
    (inOrder : frontier.InOrder deflate) : 0 ≤ frontier.distance deflate := by
  rw [InOrder] at inOrder
  cases previous : frontier.previous with
  | none =>
      simp only [distance, consumed, sharesByte, previous, Option.any_none]
      simp
  | some last =>
      have ordered := inOrder last previous
      simp only [distance, consumed, sharesByte, previous, Option.any_some, bytesForBits,
        Bool.and_eq_true, beq_iff_eq, bne_iff_ne]
      split
      · rename_i shares
        omega
      · omega

/-- What holds of a frontier as long as puffs are laid out in a stream of the given size. -/
structure Sound (size : Nat) (frontier : Frontier) : Prop where
  reached_nonneg : 0 ≤ frontier.reached
  consumed_le : frontier.consumed ≤ size

theorem sound_start (size : Nat) : start.Sound size where
  reached_nonneg := Int.le_refl 0
  consumed_le := Nat.zero_le size

end Frontier

/-! ## One step -/

/-- A step that lays out one puff. -/
structure Placed (size : Nat) (frontier : Frontier) (deflate : BitExtent) (puff : ByteExtent)
    (next : Frontier) : Prop where
  /-- The deflate data ends at an address inside the stream. -/
  addressed : deflate.stop < addressLimit
  within : bytesForBits deflate.stop ≤ size
  inOrder : frontier.InOrder deflate
  offset : (puff.offset : Int) = (frontier.place deflate puff.length).puffOffset
  next_eq : next = ⟨(frontier.place deflate puff.length).drift, some deflate⟩

namespace Placed

variable {size : Nat} {frontier next : Frontier} {deflate : BitExtent} {puff : ByteExtent}

theorem reached_next (placed : Placed size frontier deflate puff next) :
    next.reached = puff.stop := by
  rw [placed.next_eq, Frontier.reached_place, ← placed.offset, Extent.stop, Int.natCast_add]

theorem offset_eq (placed : Placed size frontier deflate puff next) :
    (puff.offset : Int) = frontier.reached + frontier.distance deflate := by
  rw [placed.offset, Frontier.puffOffset_place]

theorem consumed_next (placed : Placed size frontier deflate puff next) :
    next.consumed = deflate.stop / 8 := by
  rw [placed.next_eq, Frontier.consumed]

theorem sound (placed : Placed size frontier deflate puff next) : next.Sound size where
  reached_nonneg := by
    rw [placed.reached_next]
    exact Int.natCast_nonneg _
  consumed_le := by
    have inside := placed.within
    rw [placed.consumed_next]
    rw [bytesForBits] at inside
    omega

end Placed

/-- Behind a sound frontier a puff of any size can be laid out. -/
theorem exists_placed {size : Nat} {frontier : Frontier} (sound : frontier.Sound size)
    {deflate : BitExtent} (addressed : deflate.stop < addressLimit)
    (within : bytesForBits deflate.stop ≤ size) (inOrder : frontier.InOrder deflate)
    (puffSize : Nat) :
    ∃ puff next, Placed size frontier deflate puff next ∧ puff.length = puffSize := by
  have nonneg : 0 ≤ (frontier.place deflate puffSize).puffOffset := by
    have reached := sound.reached_nonneg
    have apart := Frontier.distance_nonneg inOrder
    rw [Frontier.puffOffset_place]
    omega
  exact ⟨⟨(frontier.place deflate puffSize).puffOffset.toNat, puffSize⟩, _,
    ⟨addressed, within, inOrder, Int.toNat_of_nonneg nonneg, rfl⟩, rfl⟩

theorem Extent.byteStopWithin?_eq_some_iff {extent : BitExtent} {size stop : Nat} :
    extent.byteStopWithin? size = some stop ↔
      extent.stop < addressLimit ∧ bytesForBits extent.stop = stop ∧ stop ≤ size := by
  simp only [Extent.byteStopWithin?, Extent.stop?]
  split
  · rename_i address
    simp only [Option.map_some, Option.filter_eq_some_iff, Option.some.injEq, decide_eq_true_eq]
    constructor
    · rintro ⟨rfl, inside⟩
      exact ⟨address, rfl, inside⟩
    · rintro ⟨-, rfl, inside⟩
      exact ⟨rfl, inside⟩
  · rename_i noAddress
    simp [noAddress]

namespace Survey

variable {τ σ : Type} [Transform τ] [ByteStream σ]

theorem placePuff_of_within {size stop : Nat} {frontier : Frontier} {deflate : BitExtent}
    (found : deflate.byteStopWithin? size = some stop) (inOrder : frontier.InOrder deflate) :
    (placePuff size frontier deflate : Survey τ σ (ByteExtent × Frontier)) = do
      let puffSize ← puffSizeOfExtent deflate stop
      if (frontier.place deflate puffSize).puffOffset < 0 then
        fail .negativePuffOffset
      else
        return (⟨(frontier.place deflate puffSize).puffOffset.toNat, puffSize⟩,
          ⟨(frontier.place deflate puffSize).drift, some deflate⟩) := by
  rw [placePuff, found]
  dsimp only
  rw [if_neg (Frontier.inOrder_iff.mp inOrder)]

theorem placePuff_of_overlap {size stop : Nat} {frontier : Frontier} {deflate : BitExtent}
    (found : deflate.byteStopWithin? size = some stop) (overlap : ¬ frontier.InOrder deflate) :
    (placePuff size frontier deflate : Survey τ σ (ByteExtent × Frontier)) =
      fail .deflatesOverlap := by
  rw [Frontier.inOrder_iff, Decidable.not_not] at overlap
  rw [placePuff, found]
  dsimp only
  rw [if_pos overlap]

theorem placePuff_of_outside {size : Nat} {frontier : Frontier} {deflate : BitExtent}
    (outside : deflate.byteStopWithin? size = none) :
    (placePuff size frontier deflate : Survey τ σ (ByteExtent × Frontier)) =
      fail .deflateExtentPastEnd := by
  rw [placePuff, outside]

/-- A step succeeds if it can lay out the puff and the size of the puff can be found. -/
theorem placePuff_eq_ok_iff {size : Nat} {frontier next : Frontier} {deflate : BitExtent}
    {puff : ByteExtent} {bench after : Workbench τ σ} :
    placePuff size frontier deflate bench = .ok (puff, next) after ↔
      Placed size frontier deflate puff next ∧
        puffSizeOfExtent deflate (bytesForBits deflate.stop) bench = .ok puff.length after := by
  constructor
  · intro ended
    cases found : deflate.byteStopWithin? size with
    | none =>
        rw [placePuff_of_outside found] at ended
        exact absurd ended (fail_ne_ok _)
    | some stop =>
        by_cases inOrder : frontier.InOrder deflate
        · obtain ⟨addressed, rfl, within⟩ := Extent.byteStopWithin?_eq_some_iff.mp found
          rw [placePuff_of_within found inOrder] at ended
          obtain ⟨puffSize, state, measured, ended⟩ := bind_eq_ok_iff.mp ended
          by_cases negative : (frontier.place deflate puffSize).puffOffset < 0
          · rw [if_pos negative] at ended
            exact absurd ended (fail_ne_ok _)
          · rw [if_neg negative] at ended
            cases ended
            refine ⟨⟨addressed, within, inOrder, ?_, rfl⟩, measured⟩
            exact Int.toNat_of_nonneg (Int.not_lt.mp negative)
        · rw [placePuff_of_overlap found inOrder] at ended
          exact absurd ended (fail_ne_ok _)
  · rintro ⟨placed, measured⟩
    have found := Extent.byteStopWithin?_eq_some_iff.mpr ⟨placed.addressed, rfl, placed.within⟩
    have notNegative : ¬ (frontier.place deflate puff.length).puffOffset < 0 := by
      rw [← placed.offset]
      omega
    rw [placePuff_of_within found placed.inOrder]
    refine bind_eq_ok_iff.mpr ⟨puff.length, after, measured, ?_⟩
    rw [if_neg notNegative, ← placed.offset, Int.toNat_natCast, ← placed.next_eq]
    rfl

end Survey

/-! ## Runs of steps -/

/-- Steps that lay out puffs one after another. -/
inductive Laid (size : Nat) :
    Frontier → List BitExtent → List ByteExtent → Frontier → Prop
  | nil (frontier : Frontier) : Laid size frontier [] [] frontier
  | cons {frontier next last : Frontier} {deflate : BitExtent} {puff : ByteExtent}
      {deflates : List BitExtent} {puffs : List ByteExtent}
      (placed : Placed size frontier deflate puff next)
      (others : Laid size next deflates puffs last) :
      Laid size frontier (deflate :: deflates) (puff :: puffs) last

namespace Laid

variable {size : Nat} {frontier last : Frontier} {deflates : List BitExtent}
  {puffs : List ByteExtent}

theorem length_eq (laid : Laid size frontier deflates puffs last) :
    puffs.length = deflates.length := by
  induction laid with
  | nil frontier => rfl
  | cons placed others ih => rw [List.length_cons, List.length_cons, ih]

theorem sound (laid : Laid size frontier deflates puffs last) (before : frontier.Sound size) :
    last.Sound size := by
  induction laid with
  | nil => exact before
  | cons placed others ih => exact ih placed.sound

end Laid

theorem Survey.placePuffs_eq_ok {τ σ : Type} [Transform τ] [ByteStream σ] {size : Nat}
    {frontier last : Frontier} {deflates : List BitExtent} {puffs : List ByteExtent}
    {bench after : Workbench τ σ}
    (ended : placePuffs size frontier deflates bench = .ok (puffs, last) after) :
    Laid size frontier deflates puffs last := by
  induction deflates generalizing frontier puffs bench with
  | nil =>
      cases ended
      exact .nil _
  | cons deflate deflates ih =>
      obtain ⟨⟨puff, next⟩, middle, first, ended⟩ := bind_eq_ok_iff.mp ended
      obtain ⟨⟨others, reached⟩, state, rest, ended⟩ := bind_eq_ok_iff.mp ended
      cases ended
      exact .cons (placePuff_eq_ok_iff.mp first).1 (ih rest)

end DeflateAtlas
