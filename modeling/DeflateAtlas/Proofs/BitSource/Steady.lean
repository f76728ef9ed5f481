import DeflateAtlas.Proofs.BitSource.Reading
import DeflateAtlas.Following

/-!
# Actions that more data does not change

Data may be cut off, or go on behind what an action has seen.  An action on a bit
source is steady if that makes no difference to it: what it gives on the shorter
data it gives on the longer data too, and it takes as many bits; and if it fails on
the shorter data, it fails in the same way on the longer data, unless it only ran
out of bits.  So a steady action never takes a cut for corrupt data.
-/

namespace DeflateAtlas.BitSource

variable {α : Type}

/-- Of two sources that began at the places `start` and `longerStart` and have taken as many bits,
the second one has the bits of the first one before it, and perhaps more behind them; both stand at
the same place in a byte. -/
structure Continues (start longerStart : Nat) (source longer : BitSource) : Prop where
  wellFormed : source.WellFormed
  longer_wellFormed : longer.WellFormed
  place : source.offset + longerStart = longer.offset + start
  aligned : source.offset % 8 = longer.offset % 8
  begins : source.bits <+: longer.bits

namespace Continues

variable {start longerStart : Nat} {source longer : BitSource}

theorem length_le (continues : Continues start longerStart source longer) :
    source.bits.length ≤ longer.bits.length :=
  continues.begins.length_le

theorem take_eq (continues : Continues start longerStart source longer) {width : Nat}
    (available : width ≤ source.bits.length) :
    longer.bits.take width = source.bits.take width := by
  obtain ⟨more, split⟩ := continues.begins
  rw [← split, List.take_append_of_le_length available]

theorem taken {after later : BitSource} {width : Nat}
    (continues : Continues start longerStart source longer) (takes : Takes source after width)
    (longerTakes : Takes longer later width) : Continues start longerStart after later where
  wellFormed := takes.wellFormed
  longer_wellFormed := longerTakes.wellFormed
  place := by
    have place := continues.place
    rw [takes.offset, longerTakes.offset]
    omega
  aligned := by
    have aligned := continues.aligned
    rw [takes.offset, longerTakes.offset]
    omega
  begins := by
    obtain ⟨more, split⟩ := continues.begins
    rw [takes.bits, longerTakes.bits, ← split, List.drop_append]
    exact List.prefix_append _ _

end Continues

/-- Failures for want of data. -/
def RanOut (failure : Failure) : Prop :=
  failure.kind = .shortRead

/-- More data changes neither what an action gives nor, unless it ran out of data, how it fails. -/
abbrev Steady (start longerStart : Nat) (action : Action α) : Prop :=
  Follows (Continues start longerStart) (Continues start longerStart) (fun _ _ => True) RanOut
    action action

namespace Steady

variable {start longerStart : Nat}

protected theorem throw (failure : Failure) :
    Steady start longerStart (throw failure : Action α) :=
  Follows.throw failure fun _ _ _ => trivial

/-- An action that takes a certain number of bits if there are so many. -/
theorem of_takes {action : Action α} {width : Nat} (value : List Bool → α)
    (enough : ∀ source : BitSource, source.WellFormed → width ≤ source.bits.length →
      ∃ after, action source = .ok (value (source.bits.take width)) after ∧
        Takes source after width)
    (short : ∀ source : BitSource, source.WellFormed → source.bits.length < width →
      ∃ after, action source = .error .endOfBits after) : Steady start longerStart action := by
  intro source longer continues
  rcases Nat.lt_or_ge source.bits.length width with few | available
  · obtain ⟨after, failed⟩ := short source continues.wellFormed few
    rw [failed]
    have short : RanOut .endOfBits := rfl
    exact .excused short _ _
  · obtain ⟨after, run, taken⟩ := enough source continues.wellFormed available
    obtain ⟨later, longerRun, longerTaken⟩ :=
      enough longer continues.longer_wellFormed (Nat.le_trans available continues.length_le)
    rw [run, longerRun, continues.take_eq available]
    exact .ok _ (continues.taken taken longerTaken)

end Steady

/-! ## The operations of a source -/

variable {start longerStart : Nat}

theorem steady_getBits {width : Nat} (narrow : width ≤ 32) :
    Steady start longerStart (getBits width) := by
  apply Steady.of_takes bitsValue
  · intro source wellFormed available
    exact getBits_of_le wellFormed narrow available
  · intro source wellFormed few
    obtain ⟨after, failed, -⟩ := getBits_of_lt wellFormed narrow few
    exact ⟨after, failed⟩

theorem steady_getBit : Steady start longerStart getBit :=
  (steady_getBits (by decide)).map _

theorem steady_getByte : Steady start longerStart getByte := by
  apply Steady.of_takes fun word => (bitsValue word).toUInt8
  · intro source wellFormed available
    exact getByte_of_le wellFormed available
  · intro source wellFormed few
    obtain ⟨after, failed, -⟩ := getByte_of_lt wellFormed few
    exact ⟨after, failed⟩

theorem steady_getBytesOnto (length : Nat) (bytes : Bytes) :
    Steady start longerStart (getBytesOnto length bytes) := by
  induction length generalizing bytes with
  | zero => exact Follows.pure bytes
  | succ length ih => exact steady_getByte.bind fun byte => ih (bytes.push byte)

/-- Both sources are as far from the next byte boundary. -/
theorem steady_getPadding : Steady start longerStart getPadding := by
  intro source longer continues
  obtain ⟨after, run, taken⟩ := getPadding_eq continues.wellFormed
  obtain ⟨later, longerRun, longerTaken⟩ := getPadding_eq continues.longer_wellFormed
  have same : longer.bits.length % 8 = source.bits.length % 8 := by
    rw [continues.longer_wellFormed.length_bits_mod, continues.wellFormed.length_bits_mod,
      paddingWidth_congr continues.aligned]
  rw [same] at longerTaken
  rw [run, longerRun, same, continues.take_eq (Nat.mod_le _ _)]
  exact .ok _ (continues.taken taken longerTaken)

end DeflateAtlas.BitSource
