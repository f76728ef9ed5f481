import DeflateAtlas.Proofs.BitSource.Reading

/-!
# Sources that come from a buffer

A source is reachable if it begins at the start of a buffer and is then only
used by what a bit source offers, in any order, whether or not the reads
succeed.  Every operation takes some number of bits, possibly none, so a
reachable source is well formed: it stands at its offset in its buffer.
-/

namespace DeflateAtlas.BitSource

/-- What can be done with a source. -/
inductive Operation
  | getBits (width : Nat)
  | getPadding
  | getByte
  | skip (width : Nat)
  /-- Load bytes ahead of time. -/
  | fill
  /-- Take bits that are loaded; more than these or a whole word cannot be taken. -/
  | discard (width : Nat)
  deriving DecidableEq, Repr

/-- The source that an action leaves, whether it succeeds or fails. -/
def left {α : Type} (action : Action α) (source : BitSource) : BitSource :=
  match action source with
  | .ok _ after => after
  | .error _ after => after

/-- The source after an operation. -/
def Operation.run : Operation → BitSource → BitSource
  | .getBits width, source => left (BitSource.getBits width) source
  | .getPadding, source => left BitSource.getPadding source
  | .getByte, source => left BitSource.getByte source
  | .skip width, source => left (BitSource.skip width) source
  | .fill, source => source.fill
  | .discard width, source =>
      if width ≤ source.count ∧ width < 64 then source.discard width else source

/-- Some operations bring a source from the start of a buffer to its place. -/
def Reachable (source : BitSource) : Prop :=
  ∃ (data : Bytes) (operations : List Operation),
    source = operations.foldl (fun before operation => operation.run before) (ofBytes data)

theorem reachable_ofBytes (data : Bytes) : (ofBytes data).Reachable :=
  ⟨data, [], rfl⟩

theorem Reachable.run {source : BitSource} (reachable : source.Reachable)
    (operation : Operation) : (operation.run source).Reachable := by
  obtain ⟨data, operations, rfl⟩ := reachable
  refine ⟨data, operations ++ [operation], ?_⟩
  rw [List.foldl_append, List.foldl_cons, List.foldl_nil]

/-- An operation takes some number of bits. -/
theorem Operation.takes {source : BitSource} (wellFormed : source.WellFormed)
    (operation : Operation) : ∃ width, Takes source (operation.run source) width := by
  cases operation with
  | getBits width =>
      by_cases narrow : width ≤ 32
      · by_cases available : width ≤ source.bits.length
        · obtain ⟨after, run, taken⟩ := getBits_of_le wellFormed narrow available
          exact ⟨width, by rwa [Operation.run, left, run]⟩
        · obtain ⟨after, run, taken⟩ :=
            getBits_of_lt wellFormed narrow (Nat.lt_of_not_le available)
          exact ⟨0, by rwa [Operation.run, left, run]⟩
      · rw [Operation.run, left, getBits_of_wide (Nat.lt_of_not_le narrow)]
        exact ⟨0, Takes.refl wellFormed⟩
  | getPadding =>
      obtain ⟨after, run, taken⟩ := getPadding_eq wellFormed
      exact ⟨_, by rwa [Operation.run, left, run]⟩
  | getByte =>
      by_cases available : 8 ≤ source.bits.length
      · obtain ⟨after, run, taken⟩ := getByte_of_le wellFormed available
        exact ⟨8, by rwa [Operation.run, left, run]⟩
      · obtain ⟨after, run, taken⟩ := getByte_of_lt wellFormed (Nat.lt_of_not_le available)
        exact ⟨0, by rwa [Operation.run, left, run]⟩
  | skip width =>
      by_cases available : width ≤ source.bits.length
      · obtain ⟨after, run, taken⟩ := skip_of_le wellFormed available
        exact ⟨width, by rwa [Operation.run, left, run]⟩
      · rw [Operation.run, left, skip_of_lt (Nat.lt_of_not_le available)]
        exact ⟨0, Takes.refl wellFormed⟩
  | fill => exact ⟨0, wellFormed.takes_fill⟩
  | discard width =>
      rw [Operation.run]
      split
      · rename_i fits
        exact ⟨width, wellFormed.takes_discard fits.2 fits.1⟩
      · exact ⟨0, Takes.refl wellFormed⟩

theorem Reachable.wellFormed {source : BitSource} (reachable : source.Reachable) :
    source.WellFormed := by
  obtain ⟨data, operations, rfl⟩ := reachable
  have start := wellFormed_ofBytes data
  revert start
  generalize ofBytes data = source
  intro start
  induction operations generalizing source with
  | nil => exact start
  | cons operation operations ih =>
      obtain ⟨width, taken⟩ := operation.takes start
      exact ih _ taken.wellFormed

end DeflateAtlas.BitSource
