import DeflateAtlas.Proofs.BitSource.Reading
import DeflateAtlas.Proofs.Demand

/-!
# Reading bits with nothing taken for granted

These are the operations of a bit source with demands: no more bits are taken than
are loaded, bytes are taken at byte boundaries only, no difference is negative, and
what becomes a byte fits one.  On a well-formed source every demand is met, and reads
of at most 32 bits fail only for want of data.
-/

namespace DeflateAtlas

/-- The failures of corrupt data and of data that ends early.  A symbol beyond the code length
alphabet is none of them: that alphabet has words for its own symbols only. -/
def Failure.Expected (failure : Failure) : Prop :=
  (failure.kind = .invalidDeflate ∨ failure.kind = .shortRead) ∧
    failure ≠ .invalidCodeLengthSymbol

instance (failure : Failure) : Decidable failure.Expected :=
  inferInstanceAs (Decidable (_ ∧ _))

namespace BitSource

/-- A well-formed source at a byte boundary. -/
structure Aligned (source : BitSource) : Prop where
  wellFormed : source.WellFormed
  offset_mod : source.offset % 8 = 0

theorem Aligned.count_mod {source : BitSource} (aligned : source.Aligned) :
    source.count % 8 = 0 := by
  have loaded := aligned.wellFormed.count_le_position
  have whole := aligned.offset_mod
  simp only [offset] at whole
  omega

theorem Aligned.taken {source after : BitSource} (aligned : source.Aligned) {width : Nat}
    (takes : Takes source after width) (whole : width % 8 = 0) : after.Aligned where
  wellFormed := takes.wellFormed
  offset_mod := by
    have before := aligned.offset_mod
    rw [takes.offset]
    omega

theorem peek_lt {source : BitSource} {width : Nat} (loaded : width ≤ source.count)
    (narrow : width < 64) : source.peek width < 2 ^ width := by
  have available : width ≤ source.bits.length := by
    rw [length_bits, remaining]
    omega
  rw [peek_eq narrow loaded]
  exact (numberSpelling_take available 0).1

theorem takes_getBits {source after : BitSource} (wellFormed : source.WellFormed) {width value : Nat}
    (narrow : width ≤ 32) (ended : getBits width source = .ok value after) :
    value < 2 ^ width ∧ Takes source after width := by
  obtain ⟨word, ⟨small, rfl⟩, -, taken⟩ := (reads_getBits narrow).sound wellFormed ended
  rw [length_lowBits] at taken
  exact ⟨small, taken⟩

/-- The padding ends at a byte boundary. -/
theorem aligned_getPadding {source after : BitSource} (wellFormed : source.WellFormed)
    {padding : UInt8} (ended : getPadding source = .ok padding after) : after.Aligned := by
  obtain ⟨word, ⟨-, rfl⟩, -, taken⟩ := reads_getPadding.sound wellFormed ended
  refine ⟨taken.wellFormed, ?_⟩
  rw [taken.offset, length_lowBits, paddingWidth]
  omega

theorem getByte_error {source after : BitSource} (wellFormed : source.WellFormed)
    {failure : Failure} (failed : getByte source = .error failure after) :
    failure = .endOfBits := by
  rcases Nat.lt_or_ge source.bits.length 8 with short | available
  · obtain ⟨stopped, run, -⟩ := getByte_of_lt wellFormed short
    rw [run] at failed
    cases failed
    rfl
  · obtain ⟨reached, run, -⟩ := getByte_of_le wellFormed available
    rw [run] at failed
    cases failed

/-- From some sources, a guarded action does what an action does and comes to others, or fails in
expected ways. -/
abbrev SafeFrom (before after : BitSource → Prop) {α : Type} (guarded action : Action α)
    (result : α → Prop) : Prop :=
  Guards before after (fun failure _ => failure.Expected) guarded action result

/-- From every well-formed source, a guarded action does what an action does. -/
abbrev Safe {α : Type} (guarded action : Action α) (result : α → Prop) : Prop :=
  SafeFrom WellFormed WellFormed guarded action result

end BitSource

namespace Guarded

open BitSource (Action Aligned Safe SafeFrom)

variable (fault : Failure)

/-! ## The operations -/

/-- Take loaded bits; the word is not shifted as a whole. -/
def discard (width : Nat) : Action Unit := do
  let source ← get
  demand fault (width ≤ source.count)
  demand fault (width < 64)
  set (source.discard width)

/-- Take bits as one number. -/
def getBits (width : Nat) : Action Nat :=
  if width = 0 then
    pure 0
  else if 32 < width then
    throw .readTooWide
  else do
    modify (·.ensure width)
    let filled ← get
    if filled.count < width then
      throw .endOfBits
    else
      discard fault width
      return filled.peek width

/-- Take one bit. -/
def getBit : Action Bool :=
  (· != 0) <$> getBits fault 1

/-- Take bits as one number that becomes a byte. -/
def getByteSized (width : Nat) : Action Nat := do
  let value ← getBits fault width
  demand fault (value < 256)
  return value

/-- Take the bits up to the next byte boundary. -/
def getPadding : Action UInt8 := do
  let source ← get
  let width := source.count % 8
  discard fault width
  demand fault (source.peek width < 256)
  return (source.peek width).toUInt8

/-- Take one byte at a byte boundary. -/
def getByte : Action UInt8 := do
  let source ← get
  demand fault (source.count % 8 = 0)
  if 0 < source.count then
    Nat.toUInt8 <$> getByteSized fault 8
  else if inside : source.position < source.data.size then
    set { source with position := source.position + 1 }
    return source.data[source.position]
  else
    throw .endOfBits

/-- Take bytes at a byte boundary and append them to `bytes`. -/
def getBytesOnto : (length : Nat) → (bytes : Bytes) → Action Bytes
  | 0, bytes => pure bytes
  | length + 1, bytes => do
      let byte ← getByte fault
      getBytesOnto length (bytes.push byte)

/-- Take bytes at a byte boundary. -/
def getBytes (length : Nat) : Action Bytes :=
  getBytesOnto fault length (Array.emptyWithCapacity length)

/-- The number of bits taken so far. -/
def offset : Action Nat := do
  let source ← get
  demand fault (source.count ≤ source.position * 8)
  return source.offset

/-- The number of bits that can still be taken. -/
def remaining : Action Nat := do
  let taken ← offset fault
  let source ← get
  demand fault (taken ≤ source.data.size * 8)
  return source.data.size * 8 - taken

/-! ## Their demands are met -/

variable {fault}

theorem discard_eq {source : BitSource} {width : Nat} (loaded : width ≤ source.count)
    (narrow : width < 64) : discard fault width source = .ok () (source.discard width) := by
  rw [discard, get_bind, demand_of loaded, demand_of narrow]
  rfl

/-- Bits are taken only once they are known to be loaded. -/
theorem getBits_eq (width : Nat) : getBits fault width = BitSource.getBits width := by
  funext source
  simp only [getBits, BitSource.getBits]
  split
  · rfl
  split
  · rfl
  rename_i narrow
  change (if (source.ensure width).count < width then throw .endOfBits else do
      discard fault width
      return (source.ensure width).peek width : Action Nat) (source.ensure width) = _
  split
  · rfl
  · rename_i enough
    exact bind_of_ok (discard_eq (Nat.le_of_not_lt enough) (by omega))

theorem safe_getBits {width : Nat} (narrow : width ≤ 32) :
    Safe (getBits fault width)
      (BitSource.getBits width) (· < 2 ^ width) := by
  apply Guards.intro
  · intro source wellFormed
    rw [getBits_eq]
  · intro source value after wellFormed ended
    obtain ⟨small, taken⟩ := BitSource.takes_getBits wellFormed narrow ended
    exact ⟨small, taken.wellFormed⟩
  · intro source failure after wellFormed failed
    obtain ⟨rfl, -⟩ := BitSource.getBits_error wellFormed narrow failed
    decide

/-- Whole bytes keep a source at a byte boundary. -/
theorem safe_getBits_aligned {width : Nat} (narrow : width ≤ 32) (whole : width % 8 = 0) :
    SafeFrom Aligned Aligned (getBits fault width) (BitSource.getBits width) (· < 2 ^ width) := by
  apply Guards.intro
  · intro source aligned
    rw [getBits_eq]
  · intro source value after aligned ended
    obtain ⟨small, taken⟩ := BitSource.takes_getBits aligned.wellFormed narrow ended
    exact ⟨small, aligned.taken taken whole⟩
  · intro source failure after aligned failed
    obtain ⟨rfl, -⟩ := BitSource.getBits_error aligned.wellFormed narrow failed
    decide

theorem safe_getBit :
    Safe (getBit fault) BitSource.getBit
      fun _ => True :=
  Guards.map _ (safe_getBits (by decide : 1 ≤ 32)) fun _ _ => trivial

/-- What has at most eight bits is a byte. -/
theorem lt_of_lt_two_pow {number width : Nat} (small : number < 2 ^ width) (narrow : width ≤ 8) :
    number < 256 :=
  Nat.lt_of_lt_of_le small (Nat.pow_le_pow_right (by decide) narrow)

theorem safe_getByteSized {width : Nat} (narrow : width ≤ 8) :
    Safe (getByteSized fault width)
      (BitSource.getBits width) (· < 2 ^ width) :=
  (safe_getBits (by omega)).check fun _ small => lt_of_lt_two_pow small narrow

theorem safe_getPadding :
    SafeFrom BitSource.WellFormed Aligned (getPadding fault) BitSource.getPadding fun _ => True := by
  apply Guards.intro
  · intro source wellFormed
    have loaded : source.count % 8 ≤ source.count := Nat.mod_le _ _
    have small := BitSource.peek_lt loaded (by omega)
    rw [getPadding, get_bind, bind_of_ok (discard_eq loaded (by omega)),
      demand_of (lt_of_lt_two_pow small (by omega))]
    rfl
  · intro source padding after wellFormed ended
    exact ⟨trivial, BitSource.aligned_getPadding wellFormed ended⟩
  · rintro source failure after wellFormed ⟨⟩

theorem safe_getByte :
    SafeFrom Aligned Aligned (getByte fault) BitSource.getByte fun _ => True := by
  apply Guards.intro
  · intro source aligned
    rw [getByte, get_bind, demand_of aligned.count_mod, pure_bind]
    simp only [BitSource.getByte]
    split
    · have byte : Safe (Nat.toUInt8 <$> getByteSized fault 8) (Nat.toUInt8 <$> BitSource.getBits 8)
          fun _ => True :=
        (safe_getByteSized (Nat.le_refl 8)).map _ fun _ _ => trivial
      exact byte.eq aligned.wellFormed
    · split
      · rfl
      · rfl
  · intro source byte after aligned ended
    obtain ⟨word, rfl, -, taken⟩ := BitSource.reads_getByte.sound aligned.wellFormed ended
    rw [length_lowBits] at taken
    exact ⟨trivial, aligned.taken taken rfl⟩
  · intro source failure after aligned failed
    rw [BitSource.getByte_error aligned.wellFormed failed]
    decide

theorem safe_getBytesOnto (length : Nat) (bytes : Bytes) :
    SafeFrom Aligned Aligned (getBytesOnto fault length bytes) (BitSource.getBytesOnto length bytes)
      fun _ => True := by
  induction length generalizing bytes with
  | zero => exact Guards.pure trivial
  | succ length ih => exact safe_getByte.bind fun byte _ => ih (bytes.push byte)

theorem safe_getBytes (length : Nat) :
    SafeFrom Aligned Aligned (getBytes fault length) (BitSource.getBytes length) fun _ => True :=
  safe_getBytesOnto length _

theorem offset_eq {source : BitSource} (wellFormed : source.WellFormed) :
    offset fault source = .ok source.offset source := by
  rw [offset, get_bind, demand_of wellFormed.count_le_position]
  rfl

/-- What is left of the data is what the source has still to give. -/
theorem remaining_eq {source : BitSource} (wellFormed : source.WellFormed) :
    remaining fault source = .ok source.remaining source := by
  have whole := wellFormed.offset_add_remaining
  rw [remaining, bind_of_ok (offset_eq wellFormed), get_bind, demand_of (by omega)]
  have left : source.data.size * 8 - source.offset = source.remaining := by omega
  rw [left]
  rfl

end Guarded

end DeflateAtlas
