import DeflateAtlas.Crc32
import DeflateAtlas.Proofs.Bits
import Mathlib.Algebra.CharP.Two
import Mathlib.Algebra.Field.ZMod
import Mathlib.RingTheory.AdjoinRoot
import Mathlib.Tactic.Ring

/-!
# The checksum is a remainder

Bits are the coefficients of a polynomial over the field of two elements, the first bit
that of the highest power.  To shift the register by a bit is to multiply it by `X`
and to reduce it, and a byte is added to the register before it is shifted eight times.
So the register always holds a remainder of what has been read, and the checksum is the
complement of the remainder of the data, its first 32 bits inverted, times `X ^ 32`.
-/

namespace DeflateAtlas.Crc32

open Polynomial

/-! ## Bits as coefficients -/

/-- The polynomial with some bits as coefficients, the first bit that of the highest power. -/
noncomputable def ofBits : List Bool → (ZMod 2)[X]
  | [] => 0
  | bit :: bits => (if bit then X ^ bits.length else 0) + ofBits bits

theorem ofBits_append (first second : List Bool) :
    ofBits (first ++ second) = X ^ second.length * ofBits first + ofBits second := by
  induction first with
  | nil => simp [ofBits]
  | cons bit first ih =>
      rw [List.cons_append, ofBits, ofBits, ih, List.length_append]
      cases bit with
      | true =>
          rw [if_pos rfl, if_pos rfl]
          ring
      | false =>
          rw [if_neg Bool.false_ne_true, if_neg Bool.false_ne_true]
          ring

theorem degree_ofBits_lt (bits : List Bool) : (ofBits bits).degree < bits.length := by
  induction bits with
  | nil => simp [ofBits]
  | cons bit bits ih =>
      rw [ofBits, List.length_cons]
      have more : ((bits.length : ℕ) : WithBot ℕ) < (bits.length + 1 : ℕ) := by
        exact_mod_cast Nat.lt_succ_self _
      refine (degree_add_le _ _).trans_lt (max_lt ?_ (ih.trans more))
      cases bit with
      | true => simpa using more
      | false => simp

/-- Lower coefficients cannot make up for one of a higher power. -/
theorem X_pow_add_ofBits_ne {bits others : List Bool} (lengths : bits.length = others.length) :
    X ^ bits.length + ofBits bits ≠ ofBits others := by
  intro same
  have lower : (ofBits bits).degree < (X ^ bits.length : (ZMod 2)[X]).degree := by
    rw [degree_X_pow]
    exact degree_ofBits_lt bits
  have small := degree_ofBits_lt others
  rw [← same, degree_add_eq_left_of_degree_lt lower, degree_X_pow, lengths] at small
  exact lt_irrefl _ small

/-- As many bits are told apart by their polynomials. -/
theorem ofBits_injective {first second : List Bool} (sameLength : first.length = second.length)
    (same : ofBits first = ofBits second) : first = second := by
  induction first generalizing second with
  | nil => exact (List.eq_nil_of_length_eq_zero sameLength.symm).symm
  | cons bit first ih =>
      cases second with
      | nil => cases sameLength
      | cons other second =>
          have lengths : first.length = second.length := Nat.succ.inj sameLength
          rw [ofBits, ofBits, lengths] at same
          cases bit <;> cases other
          · rw [ih lengths (add_left_cancel same)]
          · exact absurd (by simpa using same.symm) (X_pow_add_ofBits_ne lengths.symm)
          · exact absurd (by simpa [lengths] using same) (X_pow_add_ofBits_ne lengths)
          · rw [ih lengths (add_left_cancel same)]

theorem ofBits_lowBits_zero (width : Nat) : ofBits (lowBits width 0) = 0 := by
  induction width with
  | zero => rfl
  | succ width ih =>
      rw [lowBits, ofBits, Nat.zero_div, ih]
      simp

theorem ofBits_lowBits_xor (width first second : Nat) :
    ofBits (lowBits width (first ^^^ second)) =
      ofBits (lowBits width first) + ofBits (lowBits width second) := by
  induction width generalizing first second with
  | zero => simp [lowBits, ofBits]
  | succ width ih =>
      have half : (first ^^^ second) / 2 = first / 2 ^^^ second / 2 := Nat.xor_div_two
      rw [lowBits, lowBits, lowBits, ofBits, ofBits, ofBits, half, ih, Nat.testBit_xor]
      simp only [length_lowBits]
      cases first.testBit 0 <;> cases second.testBit 0
      · simp
      · simp [add_left_comm]
      · simp [add_assoc]
      · simp only [bne_self_eq_false, Bool.false_eq_true, if_false, if_true]
        rw [add_add_add_comm, CharTwo.add_self_eq_zero]

/-! ## The register -/

/-- The polynomial that a register holds. -/
noncomputable def residue (register : UInt32) : (ZMod 2)[X] :=
  ofBits (lowBits 32 register.toNat)

/-- The polynomial that the register is divided by. -/
noncomputable def generator : (ZMod 2)[X] :=
  X ^ 32 + X ^ 26 + X ^ 23 + X ^ 22 + X ^ 16 + X ^ 12 + X ^ 11 + X ^ 10 + X ^ 8 + X ^ 7 + X ^ 5 +
    X ^ 4 + X ^ 2 + X + 1

theorem generator_eq : generator = X ^ 32 + residue 0xedb88320 := by
  have digits : lowBits 32 (0xedb88320 : UInt32).toNat =
      [false, false, false, false, false, true, false, false, true, true, false, false, false,
        false, false, true, false, false, false, true, true, true, false, true, true, false, true,
        true, false, true, true, true] := by decide
  rw [generator, residue, digits]
  simp [ofBits]
  ring

theorem monic_generator : generator.Monic := by
  rw [generator_eq]
  exact monic_X_pow_add (degree_ofBits_lt _)

theorem degree_generator : generator.degree = 32 := by
  have small : (residue 0xedb88320).degree < (X ^ 32 : (ZMod 2)[X]).degree := by
    rw [degree_X_pow]
    exact degree_ofBits_lt _
  rw [generator_eq, degree_add_eq_left_of_degree_lt small, degree_X_pow]
  rfl

theorem residue_xor (first second : UInt32) :
    residue (first ^^^ second) = residue first + residue second := by
  rw [residue, UInt32.toNat_xor, ofBits_lowBits_xor]
  rfl

theorem and_one_eq_one_iff (register : UInt32) :
    register &&& 1 = 1 ↔ register.toNat.testBit 0 = true := by
  rw [← UInt32.toNat_inj, UInt32.toNat_and, Nat.testBit_zero, decide_eq_true_iff]
  exact Iff.of_eq (congrArg (· = 1) (Nat.and_one_is_mod _))

/-- The lowest bit is lost, that is, the coefficient of the highest power. -/
theorem residue_shiftRight (register : UInt32) :
    X * residue register =
      (if register.toNat.testBit 0 then X ^ 32 else 0) + residue (register >>> 1) := by
  have half : (register >>> 1).toNat = register.toNat / 2 := by
    rw [UInt32.toNat_shiftRight]
    exact Nat.shiftRight_eq_div_pow _ 1
  have top : register.toNat / 2 / 2 ^ 31 = 0 := by
    have small := register.toNat_lt
    omega
  have shifted : lowBits 32 (register.toNat / 2) = lowBits 31 (register.toNat / 2) ++ [false] := by
    rw [lowBits_add 31 1, top]
    rfl
  rw [residue, residue, half, shifted, ofBits_append, lowBits, ofBits, length_lowBits]
  cases register.toNat.testBit 0 with
  | true =>
      rw [if_pos rfl, if_pos rfl]
      simp only [ofBits, List.length_singleton, Bool.false_eq_true, if_false]
      ring
  | false => simp [ofBits]

/-- A shift multiplies by `X`, and what has become too large is taken off. -/
theorem residue_shiftBit (register : UInt32) :
    residue (shiftBit register) =
      X * residue register + if register.toNat.testBit 0 then generator else 0 := by
  rw [shiftBit, residue_shiftRight]
  by_cases odd : register.toNat.testBit 0 = true
  · rw [if_pos ((and_one_eq_one_iff register).mpr odd), if_pos odd, if_pos odd, residue_xor,
      generator_eq, add_add_add_comm, CharTwo.add_self_eq_zero, zero_add]
  · rw [if_neg (mt (and_one_eq_one_iff register).mp odd), if_neg odd, if_neg odd, zero_add,
      add_zero]

/-! ## What has been read -/

open AdjoinRoot (mk)

theorem mk_shiftBit (register : UInt32) :
    mk generator (residue (shiftBit register)) = mk generator (X * residue register) := by
  rw [residue_shiftBit, map_add]
  split
  · rw [AdjoinRoot.mk_self, add_zero]
  · rw [map_zero, add_zero]

theorem mk_shiftBits (number : Nat) (register : UInt32) :
    mk generator
        (residue ((List.range number).foldl (fun shifted _ => shiftBit shifted) register)) =
      mk generator (X ^ number * residue register) := by
  induction number with
  | zero => rw [pow_zero, one_mul]; rfl
  | succ number ih =>
      rw [List.range_succ, List.foldl_append, List.foldl_cons, List.foldl_nil, mk_shiftBit, map_mul,
        ih, ← map_mul, pow_succ', mul_assoc]

/-- A byte comes in at the highest powers. -/
theorem residue_byte (byte : UInt8) :
    residue byte.toUInt32 = X ^ 24 * ofBits (lowBits 8 byte.toNat) := by
  have high : byte.toNat / 2 ^ 8 = 0 := Nat.div_eq_of_lt byte.toNat_lt
  rw [residue, UInt8.toNat_toUInt32, lowBits_add 8 24, high, ofBits_append, ofBits_lowBits_zero,
    length_lowBits, add_zero]

theorem mk_shiftByte (register : UInt32) (byte : UInt8) :
    mk generator (residue (shiftByte register byte)) =
      mk generator (X ^ 8 * residue register + X ^ 32 * ofBits (lowBits 8 byte.toNat)) := by
  rw [shiftByte, mk_shiftBits, residue_xor, residue_byte]
  ring_nf

/-- What the register began with is added to the first 32 bits that are read. -/
theorem mk_shiftBytes (data : List UInt8) (register : UInt32) :
    mk generator (residue (data.foldl shiftByte register)) =
      mk generator
        (X ^ (8 * data.length) * residue register + X ^ 32 * ofBits (bitsOfBytes data)) := by
  induction data generalizing register with
  | nil => simp [ofBits]
  | cons byte data ih =>
      rw [List.foldl_cons, ih, map_add, map_mul, mk_shiftByte, ← map_mul, ← map_add,
        bitsOfBytes_cons, ofBits_append, length_bitsOfBytes, List.length_cons]
      ring_nf

theorem residue_injective {first second : UInt32} (same : residue first = residue second) :
    first = second := by
  have digits := ofBits_injective (by simp only [length_lowBits]) same
  have values := congrArg bitsValue digits
  rwa [bitsValue_lowBits, bitsValue_lowBits, Nat.mod_eq_of_lt first.toNat_lt,
    Nat.mod_eq_of_lt second.toNat_lt, UInt32.toNat_inj] at values

/-- The checksum of some data is the complement of a remainder, that of the data with its first 32
bits inverted and 32 zeros behind it. -/
theorem checksum_eq_iff (data : Bytes) (crc : UInt32) :
    checksum data = crc ↔
      residue (~~~crc) =
        (X ^ (8 * data.size) * residue 0xffffffff + X ^ 32 * ofBits (bitsOfBytes data.toList)) %ₘ
          generator := by
  have read := mk_shiftBytes data.toList 0xffffffff
  rw [AdjoinRoot.mk_eq_mk, Array.length_toList] at read
  have small : (residue (data.toList.foldl shiftByte 0xffffffff)).degree < generator.degree := by
    rw [degree_generator]
    exact degree_ofBits_lt _
  rw [← modByMonic_eq_of_dvd_sub monic_generator read,
    (modByMonic_eq_self_iff monic_generator).mpr small, checksum, ← Array.foldl_toList]
  constructor
  · rintro rfl
    rw [UInt32.not_not]
  · intro same
    rw [← residue_injective same, UInt32.not_not]

end DeflateAtlas.Crc32
