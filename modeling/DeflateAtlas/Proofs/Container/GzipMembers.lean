import DeflateAtlas.Proofs.Container.GzipHeader
import DeflateAtlas.Proofs.Container.Measured
import DeflateAtlas.Proofs.Container.Probing

/-!
# Gzip files as sequences of members

A member is a header, a stream that a probe measures, and eight more bytes.  The
members of a file are read off one after the other until none begins, and that there is
only one way to do so makes the walk over them exact.  What stands in those eight bytes
does not matter to it, as no header is inside of them and a probe looks only at the
stream that it measures.
-/

namespace DeflateAtlas.Gzip

/-- A member begins at a place, and its stream fills an extent. -/
structure MemberAt (probe : Probe) (data : Bytes) (place : Nat) (payload : ByteExtent) : Prop where
  header : ∃ bytes, IsHeader bytes ∧ bytes <+: data.rest place ∧
    payload.offset = place + bytes.length
  measured : Measured probe data payload
  trailer : payload.stop + trailerSize ≤ data.size

/-- From a place on, members with certain payloads stand one after the other, and where they end. -/
inductive Members (probe : Probe) (data : Bytes) : Nat → List ByteExtent → Nat → Prop
  | none {place : Nat} : Members probe data place [] place
  | next {place : Nat} {payload : ByteExtent} {payloads : List ByteExtent} {stop : Nat}
      (member : MemberAt probe data place payload)
      (others : Members probe data (payload.stop + trailerSize) payloads stop) :
      Members probe data place (payload :: payloads) stop

variable {probe : Probe} {data : Bytes}

/-! ## One member -/

namespace MemberAt

variable {place : Nat} {payload : ByteExtent}

theorem le_offset (member : MemberAt probe data place payload) :
    place + fixedHeaderSize ≤ payload.offset := by
  obtain ⟨bytes, header, -, begins⟩ := member.header
  have long := header.le_length
  omega

theorem lt_size (member : MemberAt probe data place payload) : place < data.size := by
  have behind := member.le_offset
  have inside := member.trailer
  rw [fixedHeaderSize] at behind
  rw [Extent.stop, trailerSize] at inside
  omega

end MemberAt

theorem memberAt_iff {place : Nat} {payload : ByteExtent} :
    MemberAt probe data place payload ↔
      ∃ member, Member.read probe data place = .ok member ∧ member.payload = payload := by
  constructor
  · rintro ⟨header, ⟨sizes, run, length⟩, room⟩
    have skipped := headerStop_eq_ok_iff.mpr header
    rw [Extent.stop, ← length] at room
    refine ⟨_, Member.read_of_ok skipped run room, ?_⟩
    rw [Member.payload, length]
  · rintro ⟨member, found, rfl⟩
    obtain ⟨skipped, run, room⟩ := Member.of_read found
    exact ⟨headerStop_eq_ok_iff.mp skipped, ⟨_, run, rfl⟩, room⟩

theorem MemberAt.unique {place : Nat} {first second : ByteExtent}
    (one : MemberAt probe data place first) (other : MemberAt probe data place second) :
    first = second := by
  obtain ⟨member, found, rfl⟩ := memberAt_iff.mp one
  obtain ⟨again, also, rfl⟩ := memberAt_iff.mp other
  rw [found, Except.ok.injEq] at also
  rw [also]

/-! ## A sequence of members -/

namespace Members

variable {place stop : Nat} {payloads : List ByteExtent}

theorem le_offset (members : Members probe data place payloads stop) {payload : ByteExtent}
    (inside : payload ∈ payloads) : place + fixedHeaderSize ≤ payload.offset := by
  induction members with
  | none => cases inside
  | @next place first _ _ member others ih =>
      rcases List.mem_cons.mp inside with rfl | later
      · exact member.le_offset
      · have behind := member.le_offset
        have further := ih later
        rw [Extent.stop] at further
        omega

theorem trailer_le (members : Members probe data place payloads stop) {payload : ByteExtent}
    (inside : payload ∈ payloads) : payload.stop + trailerSize ≤ data.size := by
  induction members with
  | none => cases inside
  | next member others ih =>
      rcases List.mem_cons.mp inside with rfl | later
      · exact member.trailer
      · exact ih later

theorem place_le_stop (members : Members probe data place payloads stop) : place ≤ stop := by
  induction members with
  | none => exact Nat.le_refl _
  | @next place first _ _ member others ih =>
      have behind := member.le_offset
      rw [Extent.stop] at ih
      omega

theorem trailer_le_stop (members : Members probe data place payloads stop) {payload : ByteExtent}
    (inside : payload ∈ payloads) : payload.stop + trailerSize ≤ stop := by
  induction members with
  | none => cases inside
  | next member others ih =>
      rcases List.mem_cons.mp inside with rfl | later
      · exact others.place_le_stop
      · exact ih later

theorem pairwise (members : Members probe data place payloads stop) :
    payloads.Pairwise fun first second =>
      first.stop + trailerSize + fixedHeaderSize ≤ second.offset := by
  induction members with
  | none => exact .nil
  | next member others ih => exact .cons (fun _ later => others.le_offset later) ih

theorem isChain (members : Members probe data place payloads stop) :
    payloads.IsChain fun first second =>
      MemberAt probe data (first.stop + trailerSize) second := by
  induction members with
  | none => exact .nil
  | next member others ih =>
      cases others with
      | none => exact .singleton _
      | next second later => exact .cons_cons second ih

/-- Members that no other one follows are all that there are. -/
theorem unique {last : Nat} {others : List ByteExtent}
    (members : Members probe data place payloads stop)
    (nothing : ∀ payload, ¬ MemberAt probe data stop payload)
    (again : Members probe data place others last)
    (likewise : ∀ payload, ¬ MemberAt probe data last payload) : payloads = others := by
  induction members generalizing others with
  | none =>
      cases again with
      | none => rfl
      | next member _ => exact absurd member (nothing _)
  | next member _ ih =>
      cases again with
      | none => exact absurd member (likewise _)
      | next second later =>
          obtain rfl := member.unique second
          rw [ih nothing later]

end Members

theorem exists_members (probe : Probe) (data : Bytes) (place : Nat) :
    ∃ stop, Members probe data place
        ((Walk.onward probe data place).members.map Member.payload) stop ∧
      ∀ payload, ¬ MemberAt probe data stop payload := by
  fun_induction Walk.onward probe data place with
  | case1 place within failure refused =>
      refine ⟨place, .none, fun payload begins => ?_⟩
      obtain ⟨member, found, -⟩ := memberAt_iff.mp begins
      rw [refused] at found
      cases found
  | case2 place within member found rest ih =>
      obtain ⟨stop, members, nothing⟩ := ih
      exact ⟨stop, .next (memberAt_iff.mpr ⟨member, found, rfl⟩) members, nothing⟩
  | case3 place outside => exact ⟨place, .none, fun payload begins => outside begins.lt_size⟩

theorem deflates_eq_ok_iff {extents : List ByteExtent} :
    deflates probe data = .ok extents ↔
      extents ≠ [] ∧ ∃ stop, Members probe data 0 extents stop ∧
        ∀ payload, ¬ MemberAt probe data stop payload := by
  constructor
  · intro located
    cases found : Member.read probe data 0 with
    | error failure =>
        rw [deflates_of_error found] at located
        cases located
    | ok first =>
        rw [deflates_of_read found] at located
        cases located
        obtain ⟨stop, members, nothing⟩ := exists_members probe data first.stop
        exact ⟨List.cons_ne_nil _ _, stop,
          .next (memberAt_iff.mpr ⟨first, found, rfl⟩) members, nothing⟩
  · rintro ⟨nonempty, stop, members, nothing⟩
    cases members with
    | none => exact absurd rfl nonempty
    | next member others =>
        obtain ⟨first, found, rfl⟩ := memberAt_iff.mp member
        obtain ⟨last, walked, likewise⟩ := exists_members probe data first.stop
        rw [deflates_of_read found, others.unique nothing walked likewise]

/-! ## Files as they are written -/

/-- A member with the bytes it is written as. -/
structure WrittenMember where
  header : List UInt8
  payload : List UInt8
  trailer : List UInt8
  isHeader : IsHeader header
  length_trailer : trailer.length = trailerSize

/-- All bytes of a member. -/
def WrittenMember.bytes (member : WrittenMember) : List UInt8 :=
  member.header ++ member.payload ++ member.trailer

/-- A file of some members. -/
def file (members : List WrittenMember) : List UInt8 :=
  members.flatMap WrittenMember.bytes

/-- Where the streams of members that are written from a place on lie. -/
def payloads : (place : Nat) → List WrittenMember → List ByteExtent
  | _, [] => []
  | place, member :: members =>
      ⟨place + member.header.length, member.payload.length⟩ ::
        payloads (place + member.bytes.length) members

theorem WrittenMember.length_bytes (member : WrittenMember) :
    member.bytes.length = member.header.length + member.payload.length + trailerSize := by
  rw [bytes, List.length_append, List.length_append, member.length_trailer]

theorem file_cons (member : WrittenMember) (members : List WrittenMember) :
    file (member :: members) = member.bytes ++ file members :=
  List.flatMap_cons

theorem file_append (first second : List WrittenMember) :
    file (first ++ second) = file first ++ file second :=
  List.flatMap_append

theorem payloads_append (place : Nat) (first second : List WrittenMember) :
    payloads place (first ++ second) =
      payloads place first ++ payloads (place + (file first).length) second := by
  induction first generalizing place with
  | nil => rfl
  | cons member members ih =>
      rw [List.cons_append, payloads, payloads, ih, file_cons, List.length_append, Nat.add_assoc,
        List.cons_append]

theorem length_payloads (place : Nat) (members : List WrittenMember) :
    (payloads place members).length = members.length := by
  induction members generalizing place with
  | nil => rfl
  | cons member members ih => rw [payloads, List.length_cons, List.length_cons, ih]

/-- A member with a letter as its name and its content, and with one byte as all of its trailer. -/
def letterMember (letter filler : UInt8) (nonzero : 0 ≠ letter) : WrittenMember where
  header := [0x1f, 0x8b, 8, 8] ++ [0, 0, 0, 0, 0, 255] ++ ([letter] ++ [0])
  payload := storedStream [letter]
  trailer := List.replicate trailerSize filler
  isHeader := isHeader_named rfl fun zero => nonzero (List.mem_singleton.mp zero)
  length_trailer := List.length_replicate

/-- A member of the letter a and one of the letter b. -/
def letters (filler : UInt8) : List WrittenMember :=
  [letterMember 97 filler (by decide), letterMember 98 filler (by decide)]

theorem completeStream_letters (filler : UInt8) :
    ∀ member ∈ letters filler, CompleteStream member.payload := by
  rw [letters, List.forall_mem_cons, List.forall_mem_singleton]
  exact ⟨completeStream_stored (by decide), completeStream_stored (by decide)⟩

section Written

variable {Stream : List UInt8 → Prop} (whole : probe.MeasuresWhole Stream)
include whole

theorem memberAt_of_bytes {member : WrittenMember} (stream : Stream member.payload) {place : Nat}
    (stands : member.bytes <+: data.rest place) :
    MemberAt probe data place ⟨place + member.header.length, member.payload.length⟩ := by
  have positive := member.isHeader.le_length
  have inside : place ≤ data.size := by
    refine Bytes.le_size_of_prefix (fun nothing => ?_) stands
    have short := congrArg List.length nothing
    rw [member.length_bytes, fixedHeaderSize, List.length_nil] at *
    omega
  have room := Bytes.stop_le_of_prefix inside stands
  rw [member.length_bytes] at room
  rw [WrittenMember.bytes, Bytes.append_prefix_rest_iff, Bytes.append_prefix_rest_iff] at stands
  obtain ⟨⟨begins, follows⟩, -⟩ := stands
  refine ⟨⟨member.header, member.isHeader, begins, rfl⟩, whole stream follows, ?_⟩
  change place + member.header.length + member.payload.length + trailerSize ≤ data.size
  omega

theorem members_of_file {members : List WrittenMember}
    (streams : ∀ member ∈ members, Stream member.payload) {place : Nat}
    (stands : file members <+: data.rest place) :
    Members probe data place (payloads place members) (place + (file members).length) := by
  induction members generalizing place with
  | nil => exact .none
  | cons member members ih =>
      rw [List.forall_mem_cons] at streams
      rw [file_cons, Bytes.append_prefix_rest_iff] at stands
      have others := ih streams.2 stands.2
      have stop : place + member.header.length + member.payload.length + trailerSize =
          place + member.bytes.length := by
        rw [member.length_bytes]
        omega
      rw [file_cons, List.length_append, ← Nat.add_assoc]
      refine .next (memberAt_of_bytes whole streams.1 stands.1) ?_
      rw [Extent.stop, stop]
      exact others

end Written

/-! ## Other trailers -/

/-- Some data differs from other data at most in the eight bytes after each of some extents. -/
def SameButTrailers (extents : List ByteExtent) (data other : Bytes) : Prop :=
  other.size = data.size ∧
    ∀ index, (∀ extent ∈ extents, ¬ (extent.stop ≤ index ∧ index < extent.stop + trailerSize)) →
      other[index]? = data[index]?

/-- A member stands in all data that agrees with this from its header to the end of its stream. -/
theorem MemberAt.transfer (isLocal : probe.Local) {place : Nat} {payload : ByteExtent}
    (member : MemberAt probe data place payload) {other : Bytes} (size : other.size = data.size)
    (same : ∀ index, place ≤ index → index < payload.stop → other[index]? = data[index]?) :
    MemberAt probe other place payload := by
  have behind := member.le_offset
  obtain ⟨⟨bytes, header, stands, begins⟩, ⟨sizes, run, length⟩, trailer⟩ := member
  rw [Extent.stop] at same
  have headers : other.slice place bytes.length = data.slice place bytes.length :=
    Bytes.slice_congr size fun index behind before => same index behind (by omega)
  have streams : other.slice payload.offset sizes.compressed =
      data.slice payload.offset sizes.compressed :=
    Bytes.slice_congr size fun index behind before => same index (by omega) (by omega)
  refine ⟨⟨bytes, header, ?_, begins⟩, ⟨sizes, isLocal run streams, length⟩, size ▸ trailer⟩
  rw [Bytes.prefix_rest_iff] at stands ⊢
  rw [headers, stands]

theorem Members.transfer (isLocal : probe.Local) {place stop : Nat} {payloads : List ByteExtent}
    (members : Members probe data place payloads stop) {other : Bytes}
    (size : other.size = data.size)
    (same : ∀ index, place ≤ index →
      (∀ extent ∈ payloads, ¬ (extent.stop ≤ index ∧ index < extent.stop + trailerSize)) →
        other[index]? = data[index]?) : Members probe other place payloads stop := by
  induction members with
  | none => exact .none
  | next member others ih =>
      have ahead := member.le_offset
      refine .next (member.transfer isLocal size fun index behind before => ?_)
        (ih fun index behind apart => ?_)
      · refine same index behind fun extent inside trailer => ?_
        rcases List.mem_cons.mp inside with rfl | later
        · omega
        · have further := others.le_offset later
          rw [Extent.stop] at trailer
          omega
      · refine same index (by rw [Extent.stop] at behind; omega) fun extent inside trailer => ?_
        rcases List.mem_cons.mp inside with rfl | later
        · omega
        · exact apart extent later trailer

/-- The walk finds the same members whatever stands in their trailers. -/
theorem deflates_of_sameButTrailers (isLocal : probe.Local) {extents : List ByteExtent}
    (located : deflates probe data = .ok extents) {other : Bytes}
    (same : SameButTrailers extents data other) : deflates probe other = .ok extents := by
  obtain ⟨nonempty, stop, members, nothing⟩ := deflates_eq_ok_iff.mp located
  obtain ⟨size, agree⟩ := same
  refine deflates_eq_ok_iff.mpr ⟨nonempty, stop,
    members.transfer isLocal size fun index _ => agree index,
    fun payload begins => nothing payload ?_⟩
  -- All trailers end before the place where no member begins, so the data agrees from there on.
  refine begins.transfer isLocal size.symm fun index behind _ => (agree index ?_).symm
  intro extent inside trailer
  have ends := members.trailer_le_stop inside
  omega

/-- The walk succeeds with some extents just if they are those of a sequence of members that
nothing or no member follows.  So they are inside of the data, in order and apart, the header of
each member begins eight bytes after the stream of the one before it, and what stands in those
eight bytes does not matter. -/
theorem deflates_members (probe : Probe) (data : Bytes) :
    (∀ extents, deflates probe data = .ok extents ↔
      extents ≠ [] ∧ ∃ stop, Members probe data 0 extents stop ∧
        (stop = data.size ∨ ∀ payload, ¬ MemberAt probe data stop payload)) ∧
    ∀ extents, deflates probe data = .ok extents →
      (∀ extent ∈ extents, extent.stop + trailerSize ≤ data.size) ∧
      (extents.Pairwise fun first second =>
        first.offset < second.offset ∧ first.stop ≤ second.offset) ∧
      (extents.IsChain fun first second =>
        MemberAt probe data (first.stop + trailerSize) second) ∧
      (probe.Local → ∀ other, SameButTrailers extents data other →
        deflates probe other = .ok extents) := by
  constructor
  · intro extents
    have ended (stop : Nat) : (stop = data.size ∨ ∀ payload, ¬ MemberAt probe data stop payload) ↔
        ∀ payload, ¬ MemberAt probe data stop payload := by
      refine or_iff_right_of_imp ?_
      rintro rfl payload begins
      exact Nat.lt_irrefl _ begins.lt_size
    simp only [ended]
    exact deflates_eq_ok_iff
  · intro extents located
    obtain ⟨-, stop, members, -⟩ := deflates_eq_ok_iff.mp located
    refine ⟨fun extent => members.trailer_le, members.pairwise.imp ?_, members.isChain,
      fun isLocal other => deflates_of_sameButTrailers isLocal located⟩
    intro first second apart
    rw [fixedHeaderSize] at apart
    rw [Extent.stop] at *
    omega

/-- Members of the letters a and b, before a byte that begins no member. -/
def lettersFile (filler : UInt8) : Bytes :=
  (file (letters filler) ++ [31]).toArray

/-- The members are found with wrong trailers, and with other wrong trailers. -/
theorem deflates_members_letters :
    Probe.inflating.Local ∧
      SameButTrailers [⟨12, 6⟩, ⟨38, 6⟩] (lettersFile 0) (lettersFile 255) ∧
        deflates Probe.inflating (lettersFile 0) = .ok [⟨12, 6⟩, ⟨38, 6⟩] ∧
          deflates Probe.inflating (lettersFile 255) = .ok [⟨12, 6⟩, ⟨38, 6⟩] := by
  have same : SameButTrailers [⟨12, 6⟩, ⟨38, 6⟩] (lettersFile 0) (lettersFile 255) := by
    refine ⟨by decide, fun index apart => ?_⟩
    by_cases inside : index < 53
    · have agree : ∀ index < 53,
          (∀ extent ∈ ([⟨12, 6⟩, ⟨38, 6⟩] : List ByteExtent),
            ¬ (extent.stop ≤ index ∧ index < extent.stop + trailerSize)) →
          (lettersFile 255)[index]? = (lettersFile 0)[index]? := by decide
      exact agree index inside apart
    · rw [Array.getElem?_eq_none (Nat.le_of_not_lt inside),
        Array.getElem?_eq_none (Nat.le_of_not_lt inside)]
  have members : Members Probe.inflating (lettersFile 0) 0 [⟨12, 6⟩, ⟨38, 6⟩] 52 := by
    have stands : file (letters 0) <+: (lettersFile 0).rest 0 := List.prefix_append _ [31]
    exact members_of_file Probe.measuresWhole_inflating (completeStream_letters 0) stands
  obtain ⟨accepts, ordered⟩ := deflates_members Probe.inflating (lettersFile 0)
  have located := (accepts [⟨12, 6⟩, ⟨38, 6⟩]).mpr
    ⟨List.cons_ne_nil _ _, 52, members, .inr fun payload begins => by
      have behind := begins.le_offset
      have inside : payload.stop + 8 ≤ 53 := begins.trailer
      rw [Extent.stop] at inside
      rw [fixedHeaderSize] at behind
      omega⟩
  obtain ⟨-, -, -, transfer⟩ := ordered _ located
  exact ⟨Probe.local_inflating, same, located, transfer Probe.local_inflating _ same⟩

end DeflateAtlas.Gzip
