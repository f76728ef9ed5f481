import DeflateAtlas.BitSource
import DeflateAtlas.Proofs.Bits

/-!
# A bit source as a list of bits

`BitSource.bits` is what a source has still to give: the bits that are loaded
and then those of the bytes that are not.  A source is well formed if this is
the rest of its data from its offset on.  Every source that comes from a buffer
is well formed and stays so, and every operation does to `bits` what its name
says, so which bytes happen to be loaded never shows.
-/

namespace DeflateAtlas.BitSource

/-- The bits that a source has still to give. -/
def bits (source : BitSource) : List Bool :=
  lowBits source.count source.word.toNat ++
    bitsOfBytes (source.data.toList.drop source.position)

/-- A source that stands at its offset in its data. -/
structure WellFormed (source : BitSource) : Prop where
  /-- Only bytes of the data have been loaded. -/
  position_le : source.position ≤ source.data.size
  /-- The word has 64 bits. -/
  count_le : source.count ≤ 64
  /-- What is loaded has been loaded from the data. -/
  count_le_position : source.count ≤ source.position * 8
  /-- The bits of the word that are not loaded are zero. -/
  word_lt : source.word.toNat < 2 ^ source.count
  /-- What is left is the rest of the data. -/
  bits_eq : source.bits = (bitsOfBytes source.data.toList).drop source.offset

@[simp]
theorem length_bits (source : BitSource) : source.bits.length = source.remaining := by
  simp only [bits, List.length_append, length_lowBits, length_bitsOfBytes, List.length_drop,
    Array.length_toList, remaining]
  omega

theorem WellFormed.offset_add_remaining {source : BitSource} (wellFormed : source.WellFormed) :
    source.offset + source.remaining = source.data.size * 8 := by
  have inside := wellFormed.position_le
  have loaded := wellFormed.count_le_position
  simp only [offset, remaining]
  omega

theorem wellFormed_ofBytes (data : Bytes) : (ofBytes data).WellFormed where
  position_le := Nat.zero_le _
  count_le := Nat.zero_le _
  count_le_position := Nat.zero_le _
  word_lt := by simp [ofBytes]
  bits_eq := by simp [ofBytes, bits, offset, lowBits]

@[simp]
theorem bits_ofBytes (data : Bytes) : (ofBytes data).bits = bitsOfBytes data.toList := by
  simp [ofBytes, bits, lowBits]

/-! ## Loading bytes -/

private theorem toNat_toUInt64_mod {width : Nat} (small : width < 64) :
    width.toUInt64.toNat % 64 = width := by
  simp [Nat.toUInt64]
  omega

private theorem toNat_or_shiftLeft {word : UInt64} {count : Nat} (room : count ≤ 56)
    (small : word.toNat < 2 ^ count) (byte : UInt8) :
    (word ||| (byte.toUInt64 <<< count.toUInt64)).toNat =
      word.toNat + 2 ^ count * byte.toNat := by
  have fits : byte.toNat * 2 ^ count < 2 ^ 64 := by
    have byteSmall := byte.toNat_lt
    calc
      byte.toNat * 2 ^ count < 2 ^ 8 * 2 ^ count :=
        Nat.mul_lt_mul_of_pos_right byteSmall (Nat.two_pow_pos count)
      _ = 2 ^ (8 + count) := (Nat.pow_add 2 8 count).symm
      _ ≤ 2 ^ 64 := Nat.pow_le_pow_right (by decide) (by omega)
  rw [UInt64.toNat_or, UInt64.toNat_shiftLeft, toNat_toUInt64_mod (by omega),
    UInt8.toNat_toUInt64, Nat.shiftLeft_eq, Nat.mod_eq_of_lt fits, Nat.or_comm,
    Nat.mul_comm, ← Nat.two_pow_add_eq_or_of_lt small, Nat.add_comm]

theorem bits_load {source : BitSource} (room : source.count ≤ 56)
    (inside : source.position < source.data.size)
    (small : source.word.toNat < 2 ^ source.count) :
    (source.load source.data[source.position]).bits = source.bits := by
  have next : source.data.toList.drop source.position =
      source.data[source.position] :: source.data.toList.drop (source.position + 1) := by
    rw [List.drop_eq_getElem_cons (by simpa using inside)]
    simp
  simp only [bits, load, toNat_or_shiftLeft room small, lowBits_add_mul small, next,
    bitsOfBytes_cons, List.append_assoc]

theorem WellFormed.offset_load {source : BitSource} (wellFormed : source.WellFormed)
    (byte : UInt8) : (source.load byte).offset = source.offset := by
  have loaded := wellFormed.count_le_position
  simp only [offset, BitSource.load]
  omega

theorem WellFormed.load {source : BitSource} (wellFormed : source.WellFormed)
    (room : source.count ≤ 56) (inside : source.position < source.data.size) :
    (source.load source.data[source.position]).WellFormed where
  position_le := inside
  count_le := Nat.add_le_add_right room 8
  count_le_position := by
    have loaded := wellFormed.count_le_position
    simp only [BitSource.load]
    omega
  word_lt := by
    have small := wellFormed.word_lt
    have byteSmall := source.data[source.position].toNat_lt
    simp only [BitSource.load, toNat_or_shiftLeft room small, Nat.pow_add]
    calc
      source.word.toNat + 2 ^ source.count * source.data[source.position].toNat <
          2 ^ source.count + 2 ^ source.count * source.data[source.position].toNat :=
        Nat.add_lt_add_right small _
      _ = 2 ^ source.count * (source.data[source.position].toNat + 1) := by
        rw [Nat.mul_add, Nat.mul_one, Nat.add_comm]
      _ ≤ 2 ^ source.count * 2 ^ 8 := Nat.mul_le_mul_left _ byteSmall
  bits_eq := by
    rw [bits_load room inside wellFormed.word_lt, wellFormed.offset_load]
    exact wellFormed.bits_eq

theorem WellFormed.fill {source : BitSource} (wellFormed : source.WellFormed) :
    source.fill.WellFormed ∧ source.fill.bits = source.bits ∧
      source.fill.offset = source.offset := by
  fun_induction BitSource.fill source with
  | case1 source inside ih =>
      obtain ⟨formed, kept, unmoved⟩ := ih (wellFormed.load inside.1 inside.2)
      exact ⟨formed, kept.trans (bits_load inside.1 inside.2 wellFormed.word_lt),
        unmoved.trans (wellFormed.offset_load _)⟩
  | case2 source _ => exact ⟨wellFormed, rfl, rfl⟩

theorem WellFormed.ensure {source : BitSource} (wellFormed : source.WellFormed) (width : Nat) :
    (source.ensure width).WellFormed ∧ (source.ensure width).bits = source.bits ∧
      (source.ensure width).offset = source.offset := by
  unfold BitSource.ensure
  split
  · exact wellFormed.fill
  · exact ⟨wellFormed, rfl, rfl⟩

/-- After loading, either enough bits are loaded or nothing more can be loaded. -/
theorem fill_count (source : BitSource) :
    56 < source.fill.count ∨ source.data.size ≤ source.fill.position := by
  fun_induction BitSource.fill source with
  | case1 source inside ih => exact ih
  | case2 source outside => omega

theorem le_count_ensure {source : BitSource} {width : Nat} (narrow : width ≤ 57)
    (available : width ≤ source.remaining) :
    width ≤ (source.ensure width).count := by
  have kept := remaining_ensure source width
  have loads := fill_count source
  have data := data_fill source
  unfold BitSource.ensure at *
  split
  · rename_i short
    simp only [short, if_true, remaining] at kept
    simp only [remaining] at available
    rw [data] at kept
    omega
  · omega

/-! ## Taking bits -/

theorem toNat_mask {width : Nat} (narrow : width < 64) : (mask width).toNat = 2 ^ width - 1 := by
  have power : ((1 : UInt64) <<< width.toUInt64).toNat = 2 ^ width := by
    rw [UInt64.toNat_shiftLeft, toNat_toUInt64_mod narrow]
    simp only [UInt64.toNat_one, Nat.shiftLeft_eq, Nat.one_mul]
    exact Nat.mod_eq_of_lt (Nat.pow_lt_pow_right (by decide) narrow)
  have positive : 1 ≤ 2 ^ width := Nat.two_pow_pos width
  rw [mask, UInt64.toNat_sub_of_le, power, UInt64.toNat_one]
  rw [UInt64.le_iff_toNat_le, power]
  exact positive

theorem peek_eq {source : BitSource} {width : Nat} (narrow : width < 64)
    (loaded : width ≤ source.count) :
    source.peek width = bitsValue (source.bits.take width) := by
  have first : source.bits.take width = lowBits width source.word.toNat := by
    rw [bits, List.take_append_of_le_length (by simpa using loaded), take_lowBits loaded]
  rw [peek, UInt64.toNat_and, toNat_mask narrow, Nat.and_two_pow_sub_one_eq_mod, first,
    bitsValue_lowBits]

/-- With eight bits loaded, the low byte of the word is what comes next. -/
theorem lowBits_lowByte {source : BitSource} (loaded : 8 ≤ source.count) :
    lowBits 8 source.lowByte.toNat = source.bits.take 8 := by
  have low : source.lowByte.toNat = source.word.toNat % 2 ^ 8 := by
    simp [lowByte]
  rw [low, lowBits_mod (Nat.le_refl 8), bits,
    List.take_append_of_le_length (by simpa using loaded), take_lowBits loaded]

theorem bits_discard {source : BitSource} {width : Nat} (narrow : width < 64)
    (loaded : width ≤ source.count) :
    (source.discard width).bits = source.bits.drop width := by
  have shifted : (source.word >>> width.toUInt64).toNat = source.word.toNat / 2 ^ width := by
    rw [UInt64.toNat_shiftRight, toNat_toUInt64_mod narrow, Nat.shiftRight_eq_div_pow]
  rw [bits, bits, List.drop_append_of_le_length (by simpa using loaded), drop_lowBits loaded]
  simp only [discard, shifted]

theorem offset_discard {source : BitSource} (wellFormed : source.WellFormed) {width : Nat}
    (loaded : width ≤ source.count) :
    (source.discard width).offset = source.offset + width := by
  have enough := wellFormed.count_le_position
  simp only [offset, discard]
  omega

theorem WellFormed.discard {source : BitSource} (wellFormed : source.WellFormed) {width : Nat}
    (narrow : width < 64) (loaded : width ≤ source.count) :
    (source.discard width).WellFormed where
  position_le := wellFormed.position_le
  count_le := Nat.le_trans (Nat.sub_le _ _) wellFormed.count_le
  count_le_position := Nat.le_trans (Nat.sub_le _ _) wellFormed.count_le_position
  word_lt := by
    have small := wellFormed.word_lt
    simp only [BitSource.discard, UInt64.toNat_shiftRight, toNat_toUInt64_mod narrow,
      Nat.shiftRight_eq_div_pow]
    apply Nat.div_lt_of_lt_mul
    rwa [← Nat.pow_add, Nat.add_sub_cancel' loaded]
  bits_eq := by
    rw [bits_discard narrow loaded, offset_discard wellFormed loaded, wellFormed.bits_eq,
      List.drop_drop]
    rfl

/-- What an action does to the bits of a source when it succeeds: it takes `width` of them. -/
structure Takes (before after : BitSource) (width : Nat) : Prop where
  wellFormed : after.WellFormed
  data : after.data = before.data
  bits : after.bits = before.bits.drop width
  offset : after.offset = before.offset + width

theorem Takes.trans {before middle after : BitSource} {first second : Nat}
    (earlier : Takes before middle first) (later : Takes middle after second) :
    Takes before after (first + second) where
  wellFormed := later.wellFormed
  data := later.data.trans earlier.data
  bits := by rw [later.bits, earlier.bits, List.drop_drop]
  offset := by rw [later.offset, earlier.offset, Nat.add_assoc]

theorem getBits_of_le {source : BitSource} (wellFormed : source.WellFormed) {width : Nat}
    (narrow : width ≤ 32) (available : width ≤ source.bits.length) :
    ∃ after, getBits width source = .ok (bitsValue (source.bits.take width)) after ∧
      Takes source after width := by
  rw [length_bits] at available
  by_cases empty : width = 0
  · subst empty
    exact ⟨source, by simp [getBits, bitsValue], wellFormed, rfl, by simp, rfl⟩
  · have loaded := le_count_ensure (Nat.le_trans narrow (by decide)) available
    obtain ⟨formed, kept, unmoved⟩ := wellFormed.ensure width
    refine ⟨(source.ensure width).discard width, ?_, formed.discard (by omega) loaded,
      data_ensure source width, ?_, ?_⟩
    · simp only [getBits, empty, if_false, Nat.not_lt.mpr narrow, Nat.not_lt.mpr loaded]
      rw [peek_eq (by omega) loaded, kept]
    · rw [bits_discard (by omega) loaded, kept]
    · rw [offset_discard formed loaded, unmoved]

theorem getBits_of_lt {source : BitSource} (wellFormed : source.WellFormed) {width : Nat}
    (narrow : width ≤ 32) (short : source.bits.length < width) :
    ∃ after, getBits width source = .error .endOfBits after ∧ Takes source after 0 := by
  rw [length_bits] at short
  obtain ⟨formed, kept, unmoved⟩ := wellFormed.ensure width
  have notLoaded : (source.ensure width).count < width := by
    have all := remaining_ensure source width
    simp only [remaining] at all short
    omega
  have positive : width ≠ 0 := by omega
  refine ⟨source.ensure width, ?_, formed, data_ensure source width, by simpa using kept, unmoved⟩
  simp only [getBits, positive, if_false, Nat.not_lt.mpr narrow, notLoaded, if_true]

theorem getBits_of_wide {source : BitSource} {width : Nat} (wide : 32 < width) :
    getBits width source = .error .readTooWide source := by
  have positive : width ≠ 0 := by omega
  simp only [getBits, positive, if_false, wide, if_true]

/-- Bits are refused only where there are not enough of them. -/
theorem getBits_error {source after : BitSource} (wellFormed : source.WellFormed) {width : Nat}
    (narrow : width ≤ 32) {failure : Failure}
    (failed : getBits width source = .error failure after) :
    failure = .endOfBits ∧ source.remaining < width := by
  rcases Nat.lt_or_ge source.bits.length width with short | available
  · obtain ⟨reached, ended, -⟩ := getBits_of_lt wellFormed narrow short
    rw [ended] at failed
    cases failed
    exact ⟨rfl, by rwa [length_bits] at short⟩
  · obtain ⟨reached, ended, -⟩ := getBits_of_le wellFormed narrow available
    rw [ended] at failed
    cases failed

/-- The bits up to the next byte boundary are those that do not fill a byte at the end. -/
theorem getPadding_eq {source : BitSource} (wellFormed : source.WellFormed) :
    ∃ after, getPadding source =
        .ok (bitsValue (source.bits.take (source.bits.length % 8))).toUInt8 after ∧
      Takes source after (source.bits.length % 8) := by
  have same : source.bits.length % 8 = source.count % 8 := by
    simp only [length_bits, remaining]
    omega
  have loaded : source.count % 8 ≤ source.count := Nat.mod_le _ _
  have narrow : source.count % 8 < 64 := by omega
  rw [same]
  refine ⟨source.discard (source.count % 8), ?_, wellFormed.discard narrow loaded, rfl,
    bits_discard narrow loaded, offset_discard wellFormed loaded⟩
  simp only [getPadding, peek_eq narrow loaded]

private theorem bits_of_count_eq_zero {source : BitSource} (nothing : source.count = 0)
    (inside : source.position < source.data.size) :
    source.bits = lowBits 8 source.data[source.position].toNat ++
      bitsOfBytes (source.data.toList.drop (source.position + 1)) := by
  have next : source.data.toList.drop source.position =
      source.data[source.position] :: source.data.toList.drop (source.position + 1) := by
    rw [List.drop_eq_getElem_cons (by simpa using inside)]
    simp
  simp [bits, nothing, lowBits, next]

/-- Whether a byte comes from the word or straight from the data, it is the next eight bits. -/
theorem getByte_of_le {source : BitSource} (wellFormed : source.WellFormed)
    (available : 8 ≤ source.bits.length) :
    ∃ after, getByte source = .ok (bitsValue (source.bits.take 8)).toUInt8 after ∧
      Takes source after 8 := by
  by_cases loaded : 0 < source.count
  · obtain ⟨after, run, taken⟩ := getBits_of_le wellFormed (by decide) available
    refine ⟨after, ?_, taken⟩
    simp only [getByte, loaded, if_true, Functor.map, EStateM.map, run]
  · have nothing : source.count = 0 := Nat.eq_zero_of_not_pos loaded
    have inside : source.position < source.data.size := by
      rw [length_bits, remaining] at available
      omega
    have split := bits_of_count_eq_zero nothing inside
    have rest : ({ source with position := source.position + 1 } : BitSource).bits =
        source.bits.drop 8 := by
      rw [split, List.drop_left' (length_lowBits 8 _)]
      simp [bits, nothing, lowBits]
    have place : ({ source with position := source.position + 1 } : BitSource).offset =
        source.offset + 8 := by
      simp only [offset, nothing]
      omega
    refine ⟨{ source with position := source.position + 1 }, ?_,
      { wellFormed := ?_, data := rfl, bits := rest, offset := place }⟩
    · have value : (bitsValue (source.bits.take 8)).toUInt8 =
          source.data[source.position] := by
        have small := source.data[source.position].toNat_lt
        rw [split, List.take_left' (length_lowBits 8 _), bitsValue_lowBits,
          Nat.mod_eq_of_lt small]
        exact UInt8.ofNat_toNat
      simp only [getByte, loaded, if_false, inside, dif_pos, value]
    · exact
        { position_le := inside
          count_le := wellFormed.count_le
          count_le_position := by simp only [nothing]; omega
          word_lt := wellFormed.word_lt
          bits_eq := by
            rw [rest, place, wellFormed.bits_eq, List.drop_drop] }

theorem getByte_of_lt {source : BitSource} (wellFormed : source.WellFormed)
    (short : source.bits.length < 8) :
    ∃ after, getByte source = .error .endOfBits after ∧ Takes source after 0 := by
  by_cases loaded : 0 < source.count
  · obtain ⟨after, run, taken⟩ := getBits_of_lt wellFormed (by decide) short
    refine ⟨after, ?_, taken⟩
    simp only [getByte, loaded, if_true, Functor.map, EStateM.map, run]
  · have outside : ¬ source.position < source.data.size := by
      rw [length_bits, remaining] at short
      omega
    refine ⟨source, ?_, wellFormed, rfl, by simp, rfl⟩
    simp only [getByte, loaded, if_false, outside, dif_neg, not_false_eq_true]

theorem dropBits_of_le {source : BitSource} (wellFormed : source.WellFormed) {width : Nat}
    (available : width ≤ source.bits.length) :
    ∃ after, dropBits width source = .ok () after ∧ Takes source after width := by
  induction width using Nat.strongRecOn generalizing source with
  | ind width ih =>
      rw [dropBits]
      by_cases empty : width = 0
      · subst empty
        exact ⟨source, by simp, wellFormed, rfl, by simp, rfl⟩
      · obtain ⟨middle, run, taken⟩ :=
          getBits_of_le wellFormed (Nat.min_le_right width 32)
            (Nat.le_trans (Nat.min_le_left width 32) available)
        obtain ⟨after, rest, dropped⟩ := ih (width - min width 32) (by omega) taken.wellFormed
          (by rw [taken.bits, List.length_drop]; omega)
        refine ⟨after, ?_, ?_⟩
        · simp only [empty, if_false, run, rest]
        · have all := taken.trans dropped
          rwa [Nat.add_sub_cancel' (Nat.min_le_left width 32)] at all

theorem skip_zero (source : BitSource) : skip 0 source = .ok () source := by
  rw [skip, if_neg (Nat.not_lt_zero _), dropBits, if_pos rfl]

theorem skip_of_le {source : BitSource} (wellFormed : source.WellFormed) {width : Nat}
    (available : width ≤ source.bits.length) :
    ∃ after, skip width source = .ok () after ∧ Takes source after width := by
  obtain ⟨after, run, taken⟩ := dropBits_of_le wellFormed available
  rw [length_bits] at available
  refine ⟨after, ?_, taken⟩
  simp only [skip, Nat.not_lt.mpr available, if_false, run]

theorem skip_of_lt {source : BitSource} {width : Nat} (short : source.bits.length < width) :
    skip width source = .error .skipPastEnd source := by
  rw [length_bits] at short
  simp only [skip, short, if_true]

end DeflateAtlas.BitSource
