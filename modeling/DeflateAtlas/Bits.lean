/-!
# Lists of bits

Deflate packs numbers into bytes from the least significant bit up, so the
value of a list of bits counts its first bit lowest.
-/

namespace DeflateAtlas

/-- The number whose binary digits are `bits`, the lowest digit first. -/
def bitsValue : List Bool → Nat
  | [] => 0
  | bit :: bits => bit.toNat + 2 * bitsValue bits

/-- The `width` lowest binary digits of a number, the lowest digit first. -/
def lowBits : (width number : Nat) → List Bool
  | 0, _ => []
  | width + 1, number => number.testBit 0 :: lowBits width (number / 2)

@[simp]
theorem length_lowBits (width number : Nat) : (lowBits width number).length = width := by
  induction width generalizing number with
  | zero => rfl
  | succ width ih => simp [lowBits, ih]

/-- A list of bits is what its value looks like in binary. -/
theorem lowBits_bitsValue (bits : List Bool) :
    lowBits bits.length (bitsValue bits) = bits := by
  induction bits with
  | nil => rfl
  | cons bit bits ih =>
      have half : (bit.toNat + 2 * bitsValue bits) / 2 = bitsValue bits := by
        have small := bit.toNat_le
        omega
      simp only [List.length_cons, lowBits, bitsValue, half, ih, Nat.testBit_zero]
      cases bit <;> simp

end DeflateAtlas
