import DeflateAtlas.Extent
import DeflateAtlas.Log
import DeflateAtlas.Probe

/-!
# Gzip files

A gzip file is one member after another (RFC 1952).  A member is a header of
ten bytes, the fields that its flags select, a deflate stream, and eight bytes
with the checksum and the size of the content.  The first member has to be
valid; whatever follows the last valid one is ignored.  The last eight bytes of
a member are only compared with what a probe has measured.
-/

namespace DeflateAtlas.Gzip

/-- The two bytes that begin a member. -/
def magic : Nat := 0x8b1f

/-- The size of a header without the fields that flags select. -/
def fixedHeaderSize : Nat := 10

/-- The number of the deflate method. -/
def deflateMethod : Nat := 8

/-- The size of checksum and content size at the end of a member. -/
def trailerSize : Nat := 8

/-- The place `length` bytes on, if the data reaches to it. -/
def skipBytes (length : Nat) (data : Bytes) (place : Nat) : Option Nat :=
  if place + length ≤ data.size then some (place + length) else none

/-- The place after a field that begins with its length in two bytes. -/
def skipExtra (data : Bytes) (place : Nat) : Option Nat := do
  let start ← skipBytes 2 data place
  skipBytes (data.field place 2) data start

/-- The place after a text that a zero byte ends. -/
def skipText (data : Bytes) (place : Nat) : Option Nat :=
  if inside : place < data.size then
    if data[place] = 0 then some (place + 1) else skipText data (place + 1)
  else
    none
termination_by data.size - place

/-- The optional fields of a header in their order: the flag bit that selects a field, and the
way past it. -/
def optionalFields : List (Nat × (Bytes → Nat → Option Nat)) :=
  [(2, skipExtra), (3, skipText), (4, skipText), (1, skipBytes 2)]

/-- The place after those of some fields that the flags select. -/
def skipFields (flags : Nat) (data : Bytes) :
    (fields : List (Nat × (Bytes → Nat → Option Nat))) → (place : Nat) → Option Nat
  | [], place => some place
  | (flag, skip) :: fields, place =>
      (if flags.testBit flag then skip data place else some place).bind
        (skipFields flags data fields)

/-- The place after the header that begins at a place. -/
def headerStop (data : Bytes) (place : Nat) : Except Failure Nat :=
  if data.size < place + fixedHeaderSize then
    .error .gzipHeaderEnded
  else if data.field place 2 ≠ magic then
    .error .gzipMagic
  else if data.field (place + 2) 1 ≠ deflateMethod then
    .error .gzipMethod
  else
    match skipFields (data.field (place + 3) 1) data optionalFields
        (place + fixedHeaderSize) with
    | some stop => .ok stop
    | none => .error .gzipHeaderEnded

/-- A member of a gzip file. -/
structure Member where
  /-- Where the deflate data begins. -/
  start : Nat
  /-- The measures of the deflate data. -/
  sizes : Measurement
  /-- The checksum of the content according to the member. -/
  crc32 : UInt32
  /-- The size of the content according to the member, modulo 2 ^ 32. -/
  contentSize : Nat
  deriving DecidableEq, Repr

namespace Member

/-- The extent of the deflate data. -/
def payload (member : Member) : ByteExtent :=
  ⟨member.start, member.sizes.compressed⟩

/-- The place after the member. -/
def stop (member : Member) : Nat :=
  member.payload.stop + trailerSize

/-- The member that begins at a place. -/
def read (probe : Probe) (data : Bytes) (place : Nat) : Except Failure Member := do
  let start ← headerStop data place
  let sizes ← probe data start
  let trailer := start + sizes.compressed
  if data.size < trailer + trailerSize then
    .error .gzipTrailerEnded
  else
    .ok
      { start, sizes
        crc32 := (data.field trailer 4).toUInt32
        contentSize := data.field (trailer + 4) 4 }

/-- The member names another checksum than was measured. -/
def checksumEvents (member : Member) : Log :=
  if member.crc32 ≠ member.sizes.crc32 then
    [⟨.warn, s!"CRC-32 in the gzip trailer: {Crc32.render member.crc32} " ++
      s!"doesn't match the data: {Crc32.render member.sizes.crc32}"⟩]
  else
    []

/-- The member names another size of the content than was measured. -/
def contentSizeEvents (member : Member) : Log :=
  if member.contentSize ≠ member.sizes.uncompressed % (1 <<< 32) then
    [⟨.warn, s!"Size in the gzip trailer: {member.contentSize} " ++
      s!"doesn't equal the real size: {member.sizes.uncompressed}"⟩]
  else
    []

/-- What is logged about a member. -/
def events (member : Member) : Log :=
  member.checksumEvents ++ member.contentSizeEvents

end Member

/-! ## Every member takes some room -/

theorem le_of_skipBytes {length : Nat} {data : Bytes} {place stop : Nat}
    (found : skipBytes length data place = some stop) : place ≤ stop := by
  unfold skipBytes at found
  split at found
  · cases found
    omega
  · cases found

theorem le_of_skipExtra {data : Bytes} {place stop : Nat}
    (found : skipExtra data place = some stop) : place ≤ stop := by
  obtain ⟨start, first, second⟩ := Option.bind_eq_some_iff.mp found
  exact Nat.le_trans (le_of_skipBytes first) (le_of_skipBytes second)

theorem le_of_skipText {data : Bytes} {place stop : Nat}
    (found : skipText data place = some stop) : place ≤ stop := by
  fun_induction skipText data place with
  | case1 => cases found; omega
  | case2 place inside other ih => exact Nat.le_of_succ_le (ih found)
  | case3 => cases found

theorem le_of_skipFields {flags : Nat} {data : Bytes}
    {fields : List (Nat × (Bytes → Nat → Option Nat))}
    (forward : ∀ field ∈ fields, ∀ ⦃place stop⦄, field.2 data place = some stop → place ≤ stop)
    {place stop : Nat} (found : skipFields flags data fields place = some stop) :
    place ≤ stop := by
  induction fields generalizing place with
  | nil => cases found; exact Nat.le_refl _
  | cons field fields ih =>
      obtain ⟨after, first, rest⟩ := Option.bind_eq_some_iff.mp found
      have later : after ≤ stop := ih (fun field member => forward field (by simp [member])) rest
      split at first
      · exact Nat.le_trans (forward field (by simp) first) later
      · cases first
        exact later

theorem le_of_headerStop {data : Bytes} {place stop : Nat}
    (found : headerStop data place = .ok stop) : place + fixedHeaderSize ≤ stop := by
  unfold headerStop at found
  split at found
  · cases found
  · split at found
    · cases found
    · split at found
      · cases found
      · split at found
        · rename_i skipped
          cases found
          refine le_of_skipFields (fun field member => ?_) skipped
          simp only [optionalFields, List.mem_cons, List.not_mem_nil, or_false] at member
          rcases member with rfl | rfl | rfl | rfl
          · exact fun _ _ => le_of_skipExtra
          · exact fun _ _ => le_of_skipText
          · exact fun _ _ => le_of_skipText
          · exact fun _ _ => le_of_skipBytes
        · cases found

theorem Member.lt_stop {probe : Probe} {data : Bytes} {place : Nat} {member : Member}
    (found : Member.read probe data place = .ok member) : place < member.stop := by
  simp only [Member.read, bind, Except.bind] at found
  split at found
  · cases found
  · rename_i start header
    split at found
    · cases found
    · split at found
      · cases found
      · cases found
        have forward := le_of_headerStop header
        simp only [Member.stop, Member.payload, Extent.stop, fixedHeaderSize] at *
        omega

/-- Why a walk over members ended before the end of the data. -/
structure Halt where
  place : Nat
  failure : Failure
  deriving DecidableEq, Repr

/-- The members found one after the other. -/
structure Walk where
  members : List Member
  halt : Option Halt
  deriving DecidableEq, Repr

namespace Walk

/-- Walk over members from a place on, as long as there are any. -/
def onward (probe : Probe) (data : Bytes) (place : Nat) : Walk :=
  if place < data.size then
    match _found : Member.read probe data place with
    | .error failure => ⟨[], some ⟨place, failure⟩⟩
    | .ok member =>
        let rest := onward probe data member.stop
        ⟨member :: rest.members, rest.halt⟩
  else
    ⟨[], none⟩
termination_by data.size - place
decreasing_by
  have forward := Member.lt_stop _found
  omega

/-- Walk over all members of a file; the first one has to be valid. -/
def ofFile (probe : Probe) (data : Bytes) : Except Failure Walk := do
  let first ← Member.read probe data 0
  let rest := onward probe data first.stop
  return ⟨first :: rest.members, rest.halt⟩

/-- The extents of the deflate data of the members. -/
def deflates (walk : Walk) : List ByteExtent :=
  walk.members.map Member.payload

/-- What is logged about the end of a walk. -/
def haltEvents (walk : Walk) : Log :=
  match walk.halt with
  | none => []
  | some halt =>
      halt.failure.events ++
        [⟨.debug, s!"stopping at offset {halt.place} after {walk.members.length} gzip members: " ++
          halt.failure.text⟩]

/-- What is logged about a walk. -/
def events (walk : Walk) : Log :=
  walk.members.flatMap Member.events ++ walk.haltEvents

end Walk

/-- The extents of the deflate data of the members of a file. -/
def deflates (probe : Probe) (data : Bytes) : Except Failure (List ByteExtent) :=
  Walk.deflates <$> Walk.ofFile probe data

end DeflateAtlas.Gzip
