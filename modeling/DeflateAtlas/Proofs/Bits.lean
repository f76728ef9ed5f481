import DeflateAtlas.Bytes
import Mathlib.Algebra.GroupWithZero.Nat

/-!
# Numbers in bits and bytes

What `width` digits of a number say is the number modulo a power of the base,
and digits can be read in portions, the lowest ones first.
-/

namespace DeflateAtlas

theorem bitsValue_lt (bits : List Bool) : bitsValue bits < 2 ^ bits.length := by
  induction bits with
  | nil => simp [bitsValue]
  | cons bit bits ih =>
      have small := bit.toNat_le
      simp only [bitsValue, List.length_cons, Nat.pow_succ]
      omega

theorem bitsValue_append (low high : List Bool) :
    bitsValue (low ++ high) = bitsValue low + 2 ^ low.length * bitsValue high := by
  induction low with
  | nil => simp [bitsValue]
  | cons bit low ih =>
      simp only [List.cons_append, bitsValue, ih, List.length_cons, Nat.pow_succ']
      rw [Nat.mul_add, Nat.add_assoc, Nat.mul_assoc]

/-- The digits of a number have its value, as far as there is room for it. -/
theorem bitsValue_lowBits (width number : Nat) :
    bitsValue (lowBits width number) = number % 2 ^ width := by
  induction width generalizing number with
  | zero => simp [bitsValue, lowBits, Nat.mod_one]
  | succ width ih =>
      simp only [bitsValue, lowBits, ih, Nat.pow_succ, Nat.mul_comm _ 2, Nat.mod_mul,
        Nat.testBit_zero]
      rcases Nat.mod_two_eq_zero_or_one number with even | odd
      · simp [even]
      · simp [odd]

/-! ## Taking lists of digits apart -/

theorem lowBits_add (low high number : Nat) :
    lowBits (low + high) number = lowBits low number ++ lowBits high (number / 2 ^ low) := by
  induction low generalizing number with
  | zero => simp [lowBits]
  | succ low ih =>
      rw [Nat.succ_add]
      simp only [lowBits, ih, List.cons_append, Nat.div_div_eq_div_mul, Nat.pow_succ,
        Nat.mul_comm]

/-- Higher digits do not matter. -/
theorem lowBits_mod {width room : Nat} (fits : width ≤ room) (number : Nat) :
    lowBits width (number % 2 ^ room) = lowBits width number := by
  induction width generalizing room number with
  | zero => rfl
  | succ width ih =>
      obtain ⟨room, rfl⟩ : ∃ smaller, room = smaller + 1 := ⟨room - 1, by omega⟩
      have lowest : (number % 2 ^ (room + 1)).testBit 0 = number.testBit 0 := by
        simp
      have higher : number % 2 ^ (room + 1) / 2 = number / 2 % 2 ^ room := by
        rw [Nat.pow_succ, Nat.mul_comm, Nat.mod_mul_right_div_self]
      simp only [lowBits, lowest, higher, ih (Nat.le_of_succ_le_succ fits)]

theorem take_lowBits {taken width : Nat} (fits : taken ≤ width) (number : Nat) :
    (lowBits width number).take taken = lowBits taken number := by
  obtain ⟨rest, rfl⟩ := Nat.exists_eq_add_of_le fits
  rw [lowBits_add, List.take_left' (length_lowBits taken number)]

theorem drop_lowBits {dropped width : Nat} (fits : dropped ≤ width) (number : Nat) :
    (lowBits width number).drop dropped =
      lowBits (width - dropped) (number / 2 ^ dropped) := by
  obtain ⟨rest, rfl⟩ := Nat.exists_eq_add_of_le fits
  rw [lowBits_add, List.drop_left' (length_lowBits dropped number), Nat.add_sub_cancel_left]

/-- A number followed by another one above it reads as the two in order. -/
theorem lowBits_add_mul {low : Nat} {first : Nat} (small : first < 2 ^ low) (high second : Nat) :
    lowBits (low + high) (first + 2 ^ low * second) =
      lowBits low first ++ lowBits high second := by
  have below : lowBits low (first + 2 ^ low * second) = lowBits low first := by
    rw [← lowBits_mod (Nat.le_refl low) (first + 2 ^ low * second), Nat.add_mul_mod_self_left,
      lowBits_mod (Nat.le_refl low)]
  have above : (first + 2 ^ low * second) / 2 ^ low = second := by
    rw [Nat.add_mul_div_left _ _ (Nat.two_pow_pos low), Nat.div_eq_of_lt small, Nat.zero_add]
  rw [lowBits_add, below, above]

theorem getElem?_lowBits (width number index : Nat) :
    (lowBits width number)[index]? =
      if index < width then some (number.testBit index) else none := by
  induction width generalizing number index with
  | zero => rfl
  | succ width ih =>
      cases index with
      | zero => simp [lowBits]
      | succ index => simp [lowBits, ih, Nat.testBit_succ]

/-! ## Numbers in bytes -/

/-- Reading back what was written gives the number modulo the room it had. -/
theorem littleEndian_toLittleEndian (width number : Nat) :
    littleEndian (toLittleEndian width number) = number % 256 ^ width := by
  induction width generalizing number with
  | zero => simp [littleEndian, toLittleEndian, Nat.mod_one]
  | succ width ih =>
      simp only [littleEndian, toLittleEndian, ih, Nat.pow_succ, Nat.mul_comm _ 256,
        Nat.mod_mul]
      simp

/-! ## Bits of bytes -/

theorem getElem?_bitsOfBytes (bytes : List UInt8) (index : Nat) :
    (bitsOfBytes bytes)[index]? =
      bytes[index / 8]?.map fun byte => byte.toNat.testBit (index % 8) := by
  induction bytes generalizing index with
  | nil => simp
  | cons byte bytes ih =>
      rw [bitsOfBytes_cons]
      by_cases here : index < 8
      · have first : index / 8 = 0 := by omega
        have place : index % 8 = index := by omega
        rw [List.getElem?_append_left (by rwa [length_lowBits]), getElem?_lowBits, if_pos here,
          first, place]
        rfl
      · have later : index / 8 = (index - 8) / 8 + 1 := by omega
        have place : index % 8 = (index - 8) % 8 := by omega
        rw [List.getElem?_append_right (by rw [length_lowBits]; omega), length_lowBits, ih, later,
          place, List.getElem?_cons_succ]

theorem bitsOfBytes_injective {first second : List UInt8}
    (same : bitsOfBytes first = bitsOfBytes second) : first = second := by
  induction first generalizing second with
  | nil =>
      cases second with
      | nil => rfl
      | cons byte second => cases same
  | cons byte first ih =>
      cases second with
      | nil => cases same
      | cons other second =>
          rw [bitsOfBytes_cons, bitsOfBytes_cons] at same
          obtain ⟨bits, others⟩ := List.append_inj same (by simp)
          have value := congrArg bitsValue bits
          rw [bitsValue_lowBits, bitsValue_lowBits, Nat.mod_eq_of_lt byte.toNat_lt,
            Nat.mod_eq_of_lt other.toNat_lt] at value
          rw [UInt8.toNat_inj.mp value, ih others]

/-! ## Bits of slices -/

theorem bitsOfBytes_drop (bytes : List UInt8) (number : Nat) :
    bitsOfBytes (bytes.drop number) = (bitsOfBytes bytes).drop (number * 8) := by
  induction number generalizing bytes with
  | zero => rw [Nat.zero_mul, List.drop_zero, List.drop_zero]
  | succ number ih =>
      cases bytes with
      | nil => simp
      | cons byte bytes =>
          rw [List.drop_succ_cons, ih, bitsOfBytes_cons, Nat.succ_mul, Nat.add_comm,
            ← List.drop_drop, List.drop_left' (length_lowBits 8 _)]

theorem bitsOfBytes_take (bytes : List UInt8) (number : Nat) :
    bitsOfBytes (bytes.take number) = (bitsOfBytes bytes).take (number * 8) := by
  induction number generalizing bytes with
  | zero => rw [Nat.zero_mul, List.take_zero, List.take_zero, bitsOfBytes_nil]
  | succ number ih =>
      cases bytes with
      | nil => simp
      | cons byte bytes =>
          have whole : (number + 1) * 8 = (lowBits 8 byte.toNat).length + number * 8 := by
            rw [length_lowBits]
            omega
          rw [List.take_succ_cons, bitsOfBytes_cons, ih, bitsOfBytes_cons, whole,
            List.take_length_add_append]

/-- The bits of a slice are those of the buffer, from its start on and as far as it goes. -/
theorem bitsOfBytes_slice (data : Bytes) (start length : Nat) :
    bitsOfBytes (data.slice start length).toList =
      ((bitsOfBytes data.toList).drop (start * 8)).take (length * 8) := by
  rw [Bytes.slice, Array.toList_extract, List.extract_eq_take_drop, Nat.add_sub_cancel_left,
    bitsOfBytes_take, bitsOfBytes_drop]

end DeflateAtlas
