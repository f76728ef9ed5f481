import DeflateAtlas.Bytes
import DeflateAtlas.Failure
import DeflateAtlas.Progress

/-!
# Reading bits

A `BitSource` takes bits from a buffer, the least significant bit of each byte
first.  It loads whole bytes into a 64-bit word ahead of time, as long as one
more byte fits, and hands out bits from the low end of that word.  Its place in
the data is `offset`, in bits; `remaining` is what is left.  A read that cannot
be satisfied takes nothing.

The lemmas on `remaining` say how much every operation takes; the loops of the
decoders end because of them.
-/

namespace DeflateAtlas

/-- A place in a buffer, with some of the bits that follow it loaded. -/
structure BitSource where
  data : Bytes
  /-- The next byte to be loaded. -/
  position : Nat
  /-- The bits that are loaded and not yet taken, the next one lowest. -/
  word : UInt64
  /-- How many bits are loaded and not yet taken. -/
  count : Nat
  deriving Repr

namespace BitSource

/-- Something done with a source; on failure the source is kept as it was left. -/
abbrev Action := EStateM Failure BitSource

/-- A source at the start of a buffer. -/
def ofBytes (data : Bytes) : BitSource :=
  ⟨data, 0, 0, 0⟩

/-- The number of bits taken so far. -/
def offset (source : BitSource) : Nat :=
  source.position * 8 - source.count

/-- The number of bytes touched so far; a byte taken in part counts whole. -/
def bytesTouched (source : BitSource) : Nat :=
  bytesForBits source.offset

/-- The number of bits that can still be taken. -/
def remaining (source : BitSource) : Nat :=
  (source.data.size - source.position) * 8 + source.count

/-- The word whose low `width` bits are set. -/
def mask (width : Nat) : UInt64 :=
  ((1 : UInt64) <<< width.toUInt64) - 1

/-- The next `width` loaded bits as a number; they stay in place. -/
def peek (source : BitSource) (width : Nat) : Nat :=
  (source.word &&& mask width).toNat

/-- The next eight loaded bits. -/
def lowByte (source : BitSource) : UInt8 :=
  source.word.toUInt8

/-- Take `width` of the loaded bits. -/
def discard (source : BitSource) (width : Nat) : BitSource :=
  { source with
    word := source.word >>> width.toUInt64
    count := source.count - width }

/-- Load a byte above the bits that are loaded already. -/
def load (source : BitSource) (byte : UInt8) : BitSource :=
  { source with
    position := source.position + 1
    word := source.word ||| (byte.toUInt64 <<< source.count.toUInt64)
    count := source.count + 8 }

/-- Load bytes as long as one more fits into the word. -/
def fill (source : BitSource) : BitSource :=
  if inside : source.count ≤ 56 ∧ source.position < source.data.size then
    fill (source.load source.data[source.position])
  else
    source
termination_by source.data.size - source.position
decreasing_by
  simp only [load]
  omega

/-- Load more bytes if fewer than `width` bits are loaded. -/
def ensure (source : BitSource) (width : Nat) : BitSource :=
  if source.count < width then source.fill else source

/-- Take `width` bits as one number, the first bit lowest. -/
def getBits (width : Nat) : Action Nat := fun source =>
  if width = 0 then
    .ok 0 source
  else if 32 < width then
    .error .readTooWide source
  else
    let filled := source.ensure width
    if filled.count < width then
      .error .endOfBits filled
    else
      .ok (filled.peek width) (filled.discard width)

/-- Take one bit. -/
def getBit : Action Bool :=
  (· != 0) <$> getBits 1

/-- Take the bits up to the next byte boundary. -/
def getPadding : Action UInt8 := fun source =>
  let width := source.count % 8
  .ok (source.peek width).toUInt8 (source.discard width)

/-- Take one byte at a byte boundary, from the word or else straight from the data. -/
def getByte : Action UInt8 := fun source =>
  if 0 < source.count then
    (Nat.toUInt8 <$> getBits 8) source
  else if inside : source.position < source.data.size then
    .ok source.data[source.position] { source with position := source.position + 1 }
  else
    .error .endOfBits source

/-- Take `length` bytes at a byte boundary and append them to `bytes`. -/
def getBytesOnto : (length : Nat) → (bytes : Bytes) → Action Bytes
  | 0, bytes => pure bytes
  | length + 1, bytes => do
      let byte ← getByte
      getBytesOnto length (bytes.push byte)

/-- Take `length` bytes at a byte boundary. -/
def getBytes (length : Nat) : Action Bytes :=
  getBytesOnto length (Array.emptyWithCapacity length)

/-- Take `width` bits, at most 32 at a time, and drop them. -/
def dropBits (width : Nat) : Action Unit := fun source =>
  if width = 0 then
    .ok () source
  else
    match getBits (min width 32) source with
    | .error failure after => .error failure after
    | .ok _ after => dropBits (width - min width 32) after
termination_by width

/-- Skip any number of bits, or none if there are not that many left. -/
def skip (width : Nat) : Action Unit := fun source =>
  if source.remaining < width then
    .error .skipPastEnd source
  else
    dropBits width source

/-! ## How much each operation takes -/

@[simp]
theorem remaining_fill (source : BitSource) : source.fill.remaining = source.remaining := by
  fun_induction fill source with
  | case1 source inside ih =>
      rw [ih]
      simp only [remaining, load]
      omega
  | case2 => rfl

@[simp]
theorem data_fill (source : BitSource) : source.fill.data = source.data := by
  fun_induction fill source with
  | case1 source inside ih => exact ih
  | case2 => rfl

@[simp]
theorem remaining_ensure (source : BitSource) (width : Nat) :
    (source.ensure width).remaining = source.remaining := by
  unfold ensure
  split
  · exact remaining_fill source
  · rfl

@[simp]
theorem data_ensure (source : BitSource) (width : Nat) :
    (source.ensure width).data = source.data := by
  unfold ensure
  split
  · exact data_fill source
  · rfl

theorem remaining_discard {source : BitSource} {width : Nat} (loaded : width ≤ source.count) :
    (source.discard width).remaining + width = source.remaining := by
  simp only [remaining, discard]
  omega

/-- A successful read takes exactly the bits it was asked for. -/
theorem remaining_getBits {width value : Nat} {before after : BitSource}
    (ended : getBits width before = .ok value after) :
    after.remaining + width = before.remaining := by
  simp only [getBits] at ended
  split at ended
  · cases ended
    omega
  · split at ended
    · cases ended
    · split at ended
      · cases ended
      · rename_i enough
        cases ended
        rw [remaining_discard (Nat.le_of_not_lt enough), remaining_ensure]

theorem shrinks_getBits (width : Nat) : Shrinks remaining (getBits width) := by
  intro before value after ended
  have taken := remaining_getBits ended
  omega

theorem consumes_getBits {width : Nat} (positive : 0 < width) :
    Consumes remaining (getBits width) := by
  intro before value after ended
  have taken := remaining_getBits ended
  omega

theorem consumes_getBit : Consumes remaining getBit :=
  (consumes_getBits (by decide)).map _

theorem shrinks_getPadding : Shrinks remaining getPadding := by
  rintro before value after ⟨⟩
  have taken := remaining_discard (Nat.mod_le before.count 8)
  omega

theorem shrinks_getByte : Shrinks remaining getByte := by
  intro before value after ended
  simp only [getByte] at ended
  split at ended
  · exact ((shrinks_getBits 8).map _) ended
  · split at ended
    · cases ended
      simp only [remaining]
      omega
    · cases ended

theorem shrinks_getBytesOnto (length : Nat) (bytes : Bytes) :
    Shrinks remaining (getBytesOnto length bytes) := by
  induction length generalizing bytes with
  | zero => exact Shrinks.pure bytes
  | succ length ih => exact shrinks_getByte.bind fun byte => ih (bytes.push byte)

theorem shrinks_getBytes (length : Nat) : Shrinks remaining (getBytes length) :=
  shrinks_getBytesOnto length _

end BitSource

end DeflateAtlas
