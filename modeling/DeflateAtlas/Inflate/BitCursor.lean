import DeflateAtlas.Bits
import DeflateAtlas.Bytes
import DeflateAtlas.Progress

/-!
# A cursor over the bits of a buffer

The inflater reads its input one bit at a time: a cursor is a buffer and the
number of bits already taken from it.
-/

namespace DeflateAtlas.Inflate

/-- Why data cannot be inflated. -/
inductive Defect
  /-- The data ended where more bits were needed. -/
  | truncated
  /-- The bits read so far begin no deflate stream. -/
  | corrupt
  deriving DecidableEq, Repr

/-- A place in a buffer, counted in bits. -/
structure BitCursor where
  data : Bytes
  offset : Nat
  deriving Repr

namespace BitCursor

/-- Something done with a cursor. -/
abbrev Action := EStateM Defect BitCursor

/-- The number of bits after the cursor. -/
def remaining (cursor : BitCursor) : Nat :=
  cursor.data.size * 8 - cursor.offset

/-- The number of bytes before the cursor; one that it stands inside of counts whole. -/
def bytesTouched (cursor : BitCursor) : Nat :=
  bytesForBits cursor.offset

/-- Take one bit. -/
def bit : Action Bool := fun cursor =>
  if inside : cursor.offset / 8 < cursor.data.size then
    .ok (cursor.data[cursor.offset / 8].toNat.testBit (cursor.offset % 8))
      { cursor with offset := cursor.offset + 1 }
  else
    .error .truncated cursor

/-- Take `width` bits as one number, the first bit lowest. -/
def bits : (width : Nat) → Action Nat
  | 0 => pure 0
  | width + 1 => do
      let low ← bit
      let high ← bits width
      return low.toNat + 2 * high

/-- Go on to the next byte boundary. -/
def align : Action Unit := fun cursor =>
  .ok () { cursor with offset := cursor.bytesTouched * 8 }

/-- Take `length` bytes at a byte boundary. -/
def bytes (length : Nat) : Action Bytes := fun cursor =>
  let start := cursor.offset / 8
  if start + length ≤ cursor.data.size then
    .ok (cursor.data.slice start length) { cursor with offset := cursor.offset + length * 8 }
  else
    .error .truncated cursor

theorem consumes_bit : Consumes remaining bit := by
  intro before value after ended
  simp only [bit] at ended
  split at ended
  · cases ended
    simp only [remaining]
    omega
  · cases ended

theorem shrinks_bits (width : Nat) : Shrinks remaining (bits width) := by
  induction width with
  | zero => exact Shrinks.pure _
  | succ width ih =>
      exact consumes_bit.shrinks.bind fun _ => ih.bind fun _ => Shrinks.pure _

theorem consumes_bits {width : Nat} (positive : 0 < width) : Consumes remaining (bits width) := by
  cases width with
  | zero => cases positive
  | succ width =>
      exact consumes_bit.bind fun _ => (shrinks_bits width).bind fun _ => Shrinks.pure _

theorem shrinks_align : Shrinks remaining align := by
  rintro before value after ⟨⟩
  simp only [remaining, bytesTouched, bytesForBits]
  omega

theorem shrinks_bytes (length : Nat) : Shrinks remaining (bytes length) := by
  intro before value after ended
  simp only [bytes] at ended
  split at ended
  · cases ended
    simp only [remaining]
    omega
  · cases ended

end BitCursor

end DeflateAtlas.Inflate
