import DeflateAtlas.Proofs.Container.GzipMembers

/-!
# Gzip files that are cut short

A file of written members is cut somewhere.  The members before the cut are all found,
since no member begins where the data ends inside of one.  If the cut is in the first
member, the failure says in which part of it: a header does not begin with another
header, so what is left of one is refused, and a probe tells a stream of which only a
part is left from one that is missing.
-/

namespace DeflateAtlas.Gzip

/-- How reading a member fails of which only the first bytes are left. -/
def WrittenMember.cutKind (member : WrittenMember) (left : Nat) : FailureKind :=
  if left < member.header.length then
    .invalidGzipHeader
  else if left = member.header.length then
    .outOfBounds
  else if left < member.header.length + member.payload.length then
    .inflateFailed
  else
    .outOfBounds

/-! ## Reading what is left of a member -/

section Read

variable {probe : Probe} {data : Bytes} {place left : Nat}

theorem headerStop_of_cut {header : List UInt8} (isHeader : IsHeader header)
    (short : left < header.length) (stands : data.rest place = header.take left) :
    ∃ failure, headerStop data place = .error failure ∧ failure.kind = .invalidGzipHeader := by
  cases skipped : headerStop data place with
  | error failure => exact ⟨failure, rfl, kind_of_headerStop skipped⟩
  | ok stop =>
      -- What was skipped is a header, and the longer one does not begin with it.
      obtain ⟨bytes, also, begins, -⟩ := headerStop_eq_ok_iff.mp skipped
      have within : bytes <+: header.take left := stands ▸ begins
      obtain rfl := also.eq_of_prefix isHeader (within.trans (List.take_prefix left _))
      have long := within.length_le
      rw [List.length_take] at long
      omega

variable {Stream : List UInt8 → Prop} (discerns : probe.Discerns Stream) {member : WrittenMember}
  (stream : Stream member.payload) (size : data.size = place + left)
include discerns stream size

/-- Reading what is left of a member behind its header. -/
theorem read_of_cut_payload (behind : member.header.length ≤ left)
    (short : left < member.bytes.length) (header : headerStop data place =
      .ok (place + member.header.length))
    (follows : data.rest (place + member.header.length) =
      (member.payload ++ member.trailer).take (left - member.header.length)) :
    ∃ failure, Member.read probe data place = .error failure ∧
      failure.kind = member.cutKind left := by
  have long := member.length_bytes
  rw [WrittenMember.cutKind, if_neg (Nat.not_lt.mpr behind)]
  split
  · rename_i nothing
    obtain ⟨failure, refused, kind⟩ := discerns.ended data
    rw [size, nothing] at refused
    exact ⟨failure, Member.read_of_no_stream header refused, kind⟩
  · rename_i something
    split
    · rename_i inPayload
      have part : left - member.header.length < member.payload.length := by omega
      rw [List.take_append_of_le_length (Nat.le_of_lt part)] at follows
      obtain ⟨failure, refused, kind⟩ := discerns.refuses stream (by omega) part follows
      exact ⟨failure, Member.read_of_no_stream header refused, kind⟩
    · rename_i pastPayload
      have whole : member.payload <+: data.rest (place + member.header.length) := by
        rw [follows, List.prefix_take_iff]
        exact ⟨List.prefix_append _ _, by omega⟩
      obtain ⟨sizes, run, length⟩ := discerns.whole stream whole
      exact ⟨.gzipTrailerEnded, Member.read_of_no_trailer header run (by omega), rfl⟩

theorem read_of_cut (short : left < member.bytes.length)
    (stands : data.rest place = member.bytes.take left) :
    ∃ failure, Member.read probe data place = .error failure ∧
      failure.kind = member.cutKind left := by
  rw [WrittenMember.bytes, List.append_assoc] at stands
  by_cases inHeader : left < member.header.length
  · rw [List.take_append_of_le_length (Nat.le_of_lt inHeader)] at stands
    obtain ⟨failure, refused, kind⟩ := headerStop_of_cut member.isHeader inHeader stands
    refine ⟨failure, Member.read_of_no_header refused, ?_⟩
    rw [kind, WrittenMember.cutKind, if_pos inHeader]
  · have behind := Nat.le_of_not_lt inHeader
    rw [List.take_append, List.take_of_length_le behind] at stands
    have header : headerStop data place = .ok (place + member.header.length) :=
      headerStop_eq_ok_iff.mpr
        ⟨member.header, member.isHeader, stands ▸ List.prefix_append _ _, rfl⟩
    exact read_of_cut_payload discerns stream size behind short header
      (Bytes.rest_of_append stands)

end Read

/-! ## Where a cut falls -/

/-- Every cut falls into one of the members. -/
theorem exists_cut_member {members : List WrittenMember} {cut : Nat}
    (proper : cut < (file members).length) :
    ∃ whole next later, members = whole ++ next :: later ∧ (file whole).length ≤ cut ∧
      cut < (file whole).length + next.bytes.length := by
  induction members generalizing cut with
  | nil => cases proper
  | cons member members ih =>
      rw [file_cons, List.length_append] at proper
      by_cases inside : cut < member.bytes.length
      · exact ⟨[], member, members, rfl, Nat.zero_le cut, Nat.lt_add_left 0 inside⟩
      · obtain ⟨whole, next, later, rfl, behind, before⟩ :=
          ih (Nat.sub_lt_left_of_lt_add (Nat.le_of_not_lt inside) proper)
        refine ⟨member :: whole, next, later, rfl, ?_, ?_⟩
        · rw [file_cons, List.length_append]
          omega
        · rw [file_cons, List.length_append]
          omega

/-- A file that is cut holds the members before the cut, and then as much of one as is left. -/
theorem take_file {whole later : List WrittenMember} {next : WrittenMember} {left : Nat}
    (short : left ≤ next.bytes.length) :
    (file (whole ++ next :: later)).take ((file whole).length + left) =
      file whole ++ next.bytes.take left := by
  rw [file_append, file_cons, List.take_length_add_append, List.take_append_of_le_length short]

/-- What is found in a file that is cut anywhere.  If the cut is in the first member, the failure
says where.  Else all members before the cut are found, and nothing is found of the one that it
is in. -/
theorem deflates_cut {probe : Probe} {Stream : List UInt8 → Prop} (discerns : probe.Discerns Stream)
    {members : List WrittenMember} (streams : ∀ member ∈ members, Stream member.payload) {cut : Nat}
    (proper : cut < (file members).length) :
    ∃ whole next later, members = whole ++ next :: later ∧ (file whole).length ≤ cut ∧
      cut < (file whole).length + next.bytes.length ∧
      (whole = [] → ∃ failure,
        deflates probe ((file members).take cut).toArray = .error failure ∧
          failure.kind = next.cutKind cut) ∧
      (whole ≠ [] →
        deflates probe ((file members).take cut).toArray =
          .ok ((payloads 0 members).take whole.length)) := by
  obtain ⟨whole, next, later, rfl, behind, before⟩ := exists_cut_member proper
  obtain ⟨left, rfl⟩ := Nat.exists_eq_add_of_le behind
  have short : left < next.bytes.length := Nat.lt_of_add_lt_add_left before
  refine ⟨whole, next, later, rfl, behind, before, ?_⟩
  rw [take_file (Nat.le_of_lt short)]
  obtain ⟨data, cutFile⟩ :
    ∃ data : Bytes, data = (file whole ++ next.bytes.take left).toArray := ⟨_, rfl⟩
  rw [← cutFile]
  have stands : data.rest 0 = file whole ++ next.bytes.take left := by
    rw [cutFile]
    rfl
  have size : data.size = 0 + (file whole).length + left := by
    have length := data.length_rest 0
    rw [stands, List.length_append, List.length_take] at length
    omega
  rw [List.forall_mem_append, List.forall_mem_cons] at streams
  obtain ⟨streams, stream, -⟩ := streams
  obtain ⟨failure, refused, kind⟩ :=
    read_of_cut discerns stream size short (Bytes.rest_of_append stands)
  constructor
  · rintro rfl
    refine ⟨failure, deflates_of_error refused, ?_⟩
    rw [kind, file, List.flatMap_nil, List.length_nil, Nat.zero_add]
  · intro nonempty
    have first : (payloads 0 (whole ++ next :: later)).take whole.length = payloads 0 whole := by
      rw [payloads_append, List.take_left' (length_payloads 0 whole)]
    have members := members_of_file discerns.whole streams (stands ▸ List.prefix_append _ _)
    rw [first, deflates_eq_ok_iff]
    refine ⟨fun nothing => ?_, _, members, fun payload begins => ?_⟩
    · have length := length_payloads 0 whole
      rw [nothing] at length
      exact nonempty (List.length_eq_zero_iff.mp length.symm)
    · obtain ⟨member, found, -⟩ := memberAt_iff.mp begins
      rw [refused] at found
      cases found

/-- Of two members the first one is found if the cut is in the second one, and none if it is in the
stream of the first one. -/
theorem deflates_cut_letters :
    Probe.inflating.Discerns CompleteStream ∧ (file (letters 0)).length = 52 ∧
      deflates Probe.inflating ((file (letters 0)).take 40).toArray = .ok [⟨12, 6⟩] ∧
      ∃ failure, deflates Probe.inflating ((file (letters 0)).take 14).toArray = .error failure ∧
        failure.kind = .inflateFailed := by
  refine ⟨Probe.discerns_inflating, by decide, ?_, ?_⟩
  · obtain ⟨whole, next, later, same, behind, before, -, found⟩ :=
      deflates_cut Probe.discerns_inflating (completeStream_letters 0)
        (show 40 < (file (letters 0)).length by decide)
    cases whole with
    | nil =>
        obtain ⟨rfl, -⟩ := List.cons.inj same
        exact absurd before (by decide)
    | cons first others =>
        obtain ⟨-, same⟩ := List.cons.inj same
        cases others with
        | nil => exact found (List.cons_ne_nil _ _)
        | cons second more =>
            obtain ⟨-, same⟩ := List.cons.inj same
            exact absurd same.symm (List.append_ne_nil_of_right_ne_nil _ (List.cons_ne_nil _ _))
  · obtain ⟨whole, next, later, same, behind, before, ended, -⟩ :=
      deflates_cut Probe.discerns_inflating (completeStream_letters 0)
        (show 14 < (file (letters 0)).length by decide)
    cases whole with
    | nil =>
        obtain ⟨rfl, -⟩ := List.cons.inj same
        exact ended rfl
    | cons first others =>
        obtain ⟨rfl, -⟩ := List.cons.inj same
        rw [file_cons, List.length_append] at behind
        exact absurd (Nat.le_of_add_right_le behind) (by decide)

end DeflateAtlas.Gzip
