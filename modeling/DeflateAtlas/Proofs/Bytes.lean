import DeflateAtlas.Proofs.Bits

/-!
# Reading on from a place

Containers are read from a place on: what counts are the bytes after it.  A field
that stands there is a number written in the first of them, and the bytes after the
field are those after the place where it ends.
-/

namespace DeflateAtlas

/-- Writing the number that some bytes stand for gives them back. -/
theorem toLittleEndian_littleEndian (bytes : List UInt8) :
    toLittleEndian bytes.length (littleEndian bytes) = bytes := by
  induction bytes with
  | nil => rfl
  | cons byte bytes ih =>
      have small := byte.toNat_lt
      have first : (byte.toNat + 256 * littleEndian bytes).toUInt8 = byte := by
        apply UInt8.toNat_inj.mp
        rw [Nat.toUInt8, UInt8.toNat_ofNat']
        omega
      have others : (byte.toNat + 256 * littleEndian bytes) / 256 = littleEndian bytes := by omega
      rw [littleEndian, List.length_cons, toLittleEndian, first, others, ih]

theorem littleEndian_injective {first second : List UInt8} (length : first.length = second.length)
    (same : littleEndian first = littleEndian second) : first = second := by
  rw [← toLittleEndian_littleEndian first, ← toLittleEndian_littleEndian second, length, same]

theorem littleEndian_lt (bytes : List UInt8) : littleEndian bytes < 256 ^ bytes.length := by
  induction bytes with
  | nil => exact Nat.one_pos
  | cons byte bytes ih =>
      have small := byte.toNat_lt
      rw [littleEndian, List.length_cons, Nat.pow_succ]
      omega

theorem bitsOfBytes_toLittleEndian (width number : Nat) :
    bitsOfBytes (toLittleEndian width number) = lowBits (width * 8) number := by
  induction width generalizing number with
  | zero => rw [Nat.zero_mul, toLittleEndian, bitsOfBytes_nil, lowBits]
  | succ width ih =>
      have first : lowBits 8 number.toUInt8.toNat = lowBits 8 number := by
        rw [Nat.toUInt8, UInt8.toNat_ofNat']
        exact lowBits_mod (Nat.le_refl 8) number
      rw [toLittleEndian, bitsOfBytes_cons, ih, first, Nat.succ_mul, Nat.add_comm, lowBits_add]
      rfl

namespace Bytes

/-- The bytes from a place on. -/
def rest (data : Bytes) (place : Nat) : List UInt8 :=
  data.toList.drop place

variable {data : Bytes} {place : Nat}

theorem length_rest (data : Bytes) (place : Nat) :
    (data.rest place).length = data.size - place := by
  rw [rest, List.length_drop, Array.length_toList]

theorem rest_add (data : Bytes) (place number : Nat) :
    data.rest (place + number) = (data.rest place).drop number := by
  rw [rest, rest, List.drop_drop]

theorem rest_of_append {first second : List UInt8} (stands : data.rest place = first ++ second) :
    data.rest (place + first.length) = second := by
  rw [rest_add, stands, List.drop_left]

/-- The bytes after a place are what stands there and the bytes after that. -/
theorem rest_eq_append {bytes : List UInt8} (stands : bytes <+: data.rest place) :
    data.rest place = bytes ++ data.rest (place + bytes.length) := by
  obtain ⟨behind, stands⟩ := stands
  rw [rest_of_append stands.symm, stands]

theorem append_prefix_rest_iff {first second : List UInt8} :
    first ++ second <+: data.rest place ↔
      first <+: data.rest place ∧ second <+: data.rest (place + first.length) := by
  constructor
  · intro stands
    have begins := (List.prefix_append first second).trans stands
    rw [rest_eq_append begins] at stands
    exact ⟨begins, (List.prefix_append_right_inj first).mp stands⟩
  · rintro ⟨begins, follows⟩
    rw [rest_eq_append begins]
    exact (List.prefix_append_right_inj first).mpr follows

theorem rest_of_lt (inside : place < data.size) :
    data.rest place = data[place] :: data.rest (place + 1) :=
  List.drop_eq_getElem_cons inside

theorem rest_append (within : place ≤ data.size) (more : Bytes) :
    (data ++ more).rest place = data.rest place ++ more.toList := by
  rw [rest, Array.toList_append, List.drop_append_of_le_length (by rwa [Array.length_toList]), rest]

theorem stop_le_size_overwrite (within : place ≤ data.size) (bytes : Bytes) :
    place + bytes.size ≤ (data.overwrite place bytes).size := by
  rw [size_overwrite bytes within]
  exact Nat.le_max_right _ _

theorem slice_append {length : Nat} (inside : place + length ≤ data.size) (more : Bytes) :
    (data ++ more).slice place length = data.slice place length := by
  have nothing : more.extract (place - data.size) (place + length - data.size) = #[] := by
    rw [Nat.sub_eq_zero_of_le inside, Array.extract_zero]
  rw [slice, slice, Array.extract_append, nothing, Array.append_empty]

/-- What stands at a place ends inside of the data. -/
theorem stop_le_of_prefix {bytes : List UInt8} (inside : place ≤ data.size)
    (stands : bytes <+: data.rest place) : place + bytes.length ≤ data.size := by
  have short := stands.length_le
  rw [length_rest] at short
  omega

theorem le_size_of_prefix {bytes : List UInt8} (some : bytes ≠ [])
    (stands : bytes <+: data.rest place) : place ≤ data.size := by
  have short := stands.length_le
  have positive := List.length_pos_iff.mpr some
  rw [length_rest] at short
  omega

theorem prefix_rest_iff {bytes : List UInt8} :
    bytes <+: data.rest place ↔ (data.slice place bytes.length).toList = bytes := by
  rw [slice, Array.toList_extract, List.extract_eq_take_drop, Nat.add_sub_cancel_left,
    List.prefix_iff_eq_take, eq_comm, rest]

theorem toList_slice (data : Bytes) (place length : Nat) :
    (data.slice place length).toList = (data.rest place).take length := by
  rw [slice, Array.toList_extract, List.extract_eq_take_drop, Nat.add_sub_cancel_left, rest]

theorem getD_slice {length index : Nat} (inside : place + length ≤ data.size)
    (before : index < length) (missing : UInt8) :
    (data.slice place length).getD index missing = data.getD (place + index) missing := by
  have taken : index < min (place + length) data.size - place := by omega
  rw [Array.getD_eq_getD_getElem?, Array.getD_eq_getD_getElem?, slice, Array.getElem?_extract,
    if_pos taken]

theorem field_eq_iff {bytes : List UInt8} (room : place + bytes.length ≤ data.size) :
    data.field place bytes.length = littleEndian bytes ↔ bytes <+: data.rest place := by
  have length : (data.slice place bytes.length).toList.length = bytes.length := by
    rw [Array.length_toList, size_slice room]
  rw [field, prefix_rest_iff]
  constructor
  · exact littleEndian_injective length
  · exact congrArg littleEndian

/-- A number that has been written is read, and the bytes after it follow. -/
theorem field_of_append {width number : Nat} {behind : List UInt8} (small : number < 256 ^ width)
    (stands : data.rest place = toLittleEndian width number ++ behind) :
    data.field place width = number ∧ data.rest (place + width) = behind := by
  have length := length_toLittleEndian width number
  constructor
  · rw [field, toList_slice, stands, List.take_left' length, littleEndian_toLittleEndian,
      Nat.mod_eq_of_lt small]
  · rw [rest_add, stands, List.drop_left' length]

/-! ## Data that has a slice in common -/

theorem slice_congr {other : Bytes} {length : Nat} (size : other.size = data.size)
    (same : ∀ index, place ≤ index → index < place + length → other[index]? = data[index]?) :
    other.slice place length = data.slice place length := by
  apply Array.ext_getElem?
  intro index
  rw [slice, slice, Array.getElem?_extract, Array.getElem?_extract, size]
  split
  · rename_i within
    exact same (place + index) (Nat.le_add_right ..) (by omega)
  · rfl

section Slice

variable {other : Bytes} {length : Nat} (same : other.slice place length = data.slice place length)
include same

theorem stop_le_of_slice_eq (positive : 0 < length) (inside : place + length ≤ data.size) :
    place + length ≤ other.size := by
  have size := congrArg Array.size same
  rw [size_slice inside, slice, Array.size_extract] at size
  omega

theorem prefix_of_slice_eq {word : List Bool} (short : word.length ≤ length * 8)
    (begins : word <+: (bitsOfBytes data.toList).drop (place * 8)) :
    word <+: (bitsOfBytes other.toList).drop (place * 8) := by
  have taken : bitsOfBytes (other.slice place length).toList =
      bitsOfBytes (data.slice place length).toList := by rw [same]
  rw [bitsOfBytes_slice, bitsOfBytes_slice] at taken
  have within := List.prefix_take_iff.mpr ⟨begins, short⟩
  rw [← taken] at within
  exact within.trans (List.take_prefix _ _)

end Slice

end Bytes

end DeflateAtlas
