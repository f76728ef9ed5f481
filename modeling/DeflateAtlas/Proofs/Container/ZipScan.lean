import DeflateAtlas.Proofs.Container.Measured
import DeflateAtlas.Proofs.Container.Probing

/-!
# The search of an archive is exhaustive

A place in an archive is accepted if a local file header stands there that is one of
deflate data inside the archive, and a probe can measure this data.  The search goes
on by one byte, by the four bytes of a signature, or past a payload, and yet finds
what one would find that takes the first accepted place, then the first one after
the payload there, and so on: no two signatures overlap, so none is skipped after a
header that does not check out.
-/

namespace DeflateAtlas

namespace Zip

/-- The bytes of the signature that begins a local file header. -/
def signatureBytes : List UInt8 := [0x50, 0x4b, 0x03, 0x04]

/-- An entry with a given payload stands at a place: there is room for the fixed part of a header,
which has the signature and names the deflate method, the payload begins after the name and the
extra field, is inside of the data as far as the header knows, and has been measured. -/
structure Accepts (probe : Probe) (data : Bytes) (place : Nat) (payload : ByteExtent) : Prop where
  room : place + fixedHeaderSize ≤ data.size
  signed : signatureBytes <+: data.rest place
  deflated : data.field (place + 8) 2 = deflateMethod
  start : payload.offset =
    place + fixedHeaderSize + data.field (place + 26) 2 + data.field (place + 28) 2
  declared : payload.offset + data.field (place + 18) 4 ≤ data.size
  measured : Measured probe data payload

/-- An entry that has been found: where its header begins, and its payload. -/
structure Entry where
  place : Nat
  payload : ByteExtent
  deriving DecidableEq, Repr

/-- The entries from a place on, taken from the left: first that at the first accepted place, and
then those from the end of its payload on. -/
inductive Leftmost (probe : Probe) (data : Bytes) : (place : Nat) → List Entry → Prop
  | none {place : Nat} (rejected : ∀ later, place ≤ later →
      ∀ payload, ¬ Accepts probe data later payload) : Leftmost probe data place []
  | next {place : Nat} {entry : Entry} {entries : List Entry} (behind : place ≤ entry.place)
      (accepted : Accepts probe data entry.place entry.payload)
      (rejected : ∀ earlier, place ≤ earlier → earlier < entry.place →
        ∀ payload, ¬ Accepts probe data earlier payload)
      (others : Leftmost probe data entry.payload.stop entries) :
      Leftmost probe data place (entry :: entries)

variable {probe : Probe} {data : Bytes}

/-! ## Signatures -/

theorem signed_iff {place : Nat} (room : place + fixedHeaderSize ≤ data.size) :
    data.field place 4 = signature ↔ signatureBytes <+: data.rest place := by
  have inside : place + signatureBytes.length ≤ data.size := by
    change place + 4 ≤ data.size
    rw [fixedHeaderSize] at room
    omega
  exact Bytes.field_eq_iff inside

/-- No signature begins inside of another one. -/
theorem not_signed_drop {bytes : List UInt8} (signed : signatureBytes <+: bytes) {number : Nat}
    (positive : 0 < number) (inside : number < signatureBytes.length) :
    ¬ signatureBytes <+: bytes.drop number := by
  obtain ⟨behind, rfl⟩ := signed
  change number < 4 at inside
  obtain rfl | rfl | rfl : number = 1 ∨ number = 2 ∨ number = 3 := by omega
  all_goals
    intro again
    have first := (List.cons_prefix_cons.mp again).1
    revert first
    decide

/-! ## Accepted places -/

theorem Accepts.payload_eq {place : Nat} {first second : ByteExtent}
    (accepts : Accepts probe data place first) (also : Accepts probe data place second) :
    first = second := by
  have start := accepts.start.trans also.start.symm
  obtain ⟨sizes, run, length⟩ := accepts.measured
  obtain ⟨others, again, otherLength⟩ := also.measured
  rw [start, again, Except.ok.injEq] at run
  rw [run, length] at otherLength
  obtain ⟨offset, _⟩ := first
  obtain ⟨_, _⟩ := second
  cases start
  cases otherLength
  rfl

theorem Accepts.lt_stop {place : Nat} {payload : ByteExtent}
    (accepts : Accepts probe data place payload) : place < payload.stop := by
  rw [Extent.stop, accepts.start, fixedHeaderSize]
  omega

/-- A header is judged to be that of an entry where an entry stands. -/
theorem deflate?_judge_eq_some_iff {place : Nat} (room : place + fixedHeaderSize ≤ data.size)
    (signed : signatureBytes <+: data.rest place) {payload : ByteExtent} :
    (Candidate.judge probe data place).deflate? = some payload ↔
      Accepts probe data place payload := by
  have start : place + (LocalHeader.decode data place).size =
      place + fixedHeaderSize + data.field (place + 26) 2 + data.field (place + 28) 2 := by
    simp only [LocalHeader.size, LocalHeader.decode, Nat.add_assoc]
  rw [Candidate.judge, start]
  split
  · rename_i other
    exact iff_of_false (by rintro ⟨⟩) fun accepts => other accepts.deflated
  · rename_i deflated
    split
    · rename_i outside
      refine iff_of_false (by rintro ⟨⟩) fun accepts => absurd accepts.declared ?_
      rw [accepts.start]
      exact Nat.not_le.mpr outside
    · rename_i inside
      split
      · rename_i failure run
        refine iff_of_false (by rintro ⟨⟩) fun accepts => ?_
        obtain ⟨sizes, measured, -⟩ := accepts.measured
        rw [accepts.start, run] at measured
        cases measured
      · rename_i sizes run
        have accepted : Accepts probe data place ⟨_, sizes.compressed⟩ :=
          ⟨room, signed, not_not.mp deflated, rfl, Nat.not_lt.mp inside, sizes, run, rfl⟩
        rw [Candidate.deflate?, Option.some.injEq]
        constructor
        · rintro rfl
          exact accepted
        · exact accepted.payload_eq

/-- The search goes on after the payload of an entry, and otherwise after the signature. -/
theorem resume_eq (candidate : Candidate) (place : Nat) :
    candidate.resume place = (candidate.deflate?.map Extent.stop).getD (place + 4) := by
  cases candidate <;> rfl

theorem not_accepts_of_rejected {place : Nat} (signed : signatureBytes <+: data.rest place)
    (rejected : ∀ payload, ¬ Accepts probe data place payload) {later : Nat}
    (behind : place ≤ later) (near : later < place + 4) (payload : ByteExtent) :
    ¬ Accepts probe data later payload := by
  obtain ⟨number, rfl⟩ := Nat.exists_eq_add_of_le behind
  rcases Nat.eq_zero_or_pos number with rfl | positive
  · exact rejected payload
  · intro accepts
    have again := accepts.signed
    rw [Bytes.rest_add] at again
    exact not_signed_drop signed positive (Nat.lt_of_add_lt_add_left near) again

/-! ## Taking entries from the left -/

namespace Leftmost

/-- A place may be moved back over places where nothing is accepted. -/
theorem extend {first second : Nat} {entries : List Entry} (le : first ≤ second)
    (rejected : ∀ place, first ≤ place → place < second →
      ∀ payload, ¬ Accepts probe data place payload)
    (leftmost : Leftmost probe data second entries) : Leftmost probe data first entries := by
  cases leftmost with
  | none others =>
      refine .none fun later behind => ?_
      by_cases near : later < second
      · exact rejected later behind near
      · exact others later (Nat.le_of_not_lt near)
  | next behind accepted others rest =>
      refine .next (Nat.le_trans le behind) accepted (fun earlier after before => ?_) rest
      by_cases near : earlier < second
      · exact rejected earlier after near
      · exact others earlier (Nat.le_of_not_lt near) before

theorem unique {place : Nat} {first second : List Entry} (leftmost : Leftmost probe data place first)
    (also : Leftmost probe data place second) : first = second := by
  induction leftmost generalizing second with
  | none rejected =>
      cases also with
      | none => rfl
      | next behind accepted => exact absurd accepted (rejected _ behind _)
  | @next place entry entries behind accepted rejected others ih =>
      cases also with
      | none rejected => exact absurd accepted (rejected _ behind _)
      | @next _ other _ otherBehind otherAccepted otherRejected otherRest =>
          have before : ¬ entry.place < other.place := fun before =>
            otherRejected entry.place behind before _ accepted
          have after : ¬ other.place < entry.place := fun after =>
            rejected other.place otherBehind after _ otherAccepted
          obtain ⟨header, payload⟩ := entry
          obtain ⟨otherHeader, otherPayload⟩ := other
          obtain rfl : header = otherHeader := by
            dsimp only at before after
            omega
          obtain rfl := accepted.payload_eq otherAccepted
          rw [ih otherRest]

/-- Entries begin where the one before them has ended. -/
theorem place_le {place : Nat} {entries : List Entry} (leftmost : Leftmost probe data place entries)
    {entry : Entry} (inside : entry ∈ entries) : place ≤ entry.place := by
  induction leftmost with
  | none => cases inside
  | next behind accepted rejected others ih =>
      rcases List.mem_cons.mp inside with rfl | later
      · exact behind
      · exact Nat.le_trans behind (Nat.le_trans (Nat.le_of_lt accepted.lt_stop) (ih later))

theorem accepts {place : Nat} {entries : List Entry} (leftmost : Leftmost probe data place entries)
    {entry : Entry} (inside : entry ∈ entries) :
    Accepts probe data entry.place entry.payload := by
  induction leftmost with
  | none => cases inside
  | next behind accepted rejected others ih =>
      rcases List.mem_cons.mp inside with rfl | later
      · exact accepted
      · exact ih later

theorem pairwise {place : Nat} {entries : List Entry}
    (leftmost : Leftmost probe data place entries) :
    entries.Pairwise fun first second => first.payload.stop ≤ second.place := by
  induction leftmost with
  | none => exact .nil
  | next behind accepted rejected others ih => exact .cons (fun _ later => others.place_le later) ih

/-- No accepted place is missed but inside of an entry. -/
theorem covered {place : Nat} {entries : List Entry} (leftmost : Leftmost probe data place entries)
    {later : Nat} (behind : place ≤ later) {payload : ByteExtent}
    (accepts : Accepts probe data later payload) :
    ∃ entry ∈ entries, entry.place ≤ later ∧ later < entry.payload.stop := by
  induction leftmost with
  | none rejected => exact absurd accepts (rejected later behind payload)
  | @next place entry entries _ accepted rejected others ih =>
      by_cases before : later < entry.place
      · exact absurd accepts (rejected later behind before payload)
      · by_cases inside : later < entry.payload.stop
        · exact ⟨entry, List.mem_cons_self .., Nat.le_of_not_lt before, inside⟩
        · obtain ⟨found, member, bounds⟩ := ih (Nat.le_of_not_lt inside)
          exact ⟨found, List.mem_cons_of_mem _ member, bounds⟩

end Leftmost

/-! ## The search -/

theorem exists_leftmost (probe : Probe) (data : Bytes) (place : Nat) :
    ∃ entries, Leftmost probe data place entries ∧
      (candidates probe data place).filterMap Candidate.deflate? = entries.map Entry.payload := by
  fun_induction candidates probe data place with
  | case1 place room signed judged ih =>
      rw [signed_iff room] at signed
      rw [resume_eq] at ih
      obtain ⟨entries, leftmost, found⟩ := ih
      have judge (payload : ByteExtent) :
          judged.deflate? = some payload ↔ Accepts probe data place payload :=
        deflate?_judge_eq_some_iff room signed
      cases outcome : judged.deflate? with
      | none =>
          rw [outcome] at leftmost
          refine ⟨entries, leftmost.extend (Nat.le_add_right place 4) ?_, ?_⟩
          · intro later behind near
            refine not_accepts_of_rejected signed (fun payload accepts => ?_) behind near
            have found := (judge payload).mpr accepts
            rw [outcome] at found
            cases found
          · rw [List.filterMap_cons, outcome, ← found, resume_eq, outcome]
      | some payload =>
          rw [outcome] at leftmost
          refine ⟨⟨place, payload⟩ :: entries, .next (Nat.le_refl place) ((judge payload).mp outcome)
            (fun earlier behind before => absurd before (Nat.not_lt.mpr behind)) leftmost, ?_⟩
          rw [List.filterMap_cons, outcome, List.map_cons, ← found, resume_eq, outcome]
  | case2 place room unsigned ih =>
      rw [signed_iff room] at unsigned
      obtain ⟨entries, leftmost, found⟩ := ih
      refine ⟨entries, leftmost.extend (Nat.le_add_right place 1) ?_, found⟩
      intro later behind near payload accepts
      obtain rfl : later = place := by omega
      exact unsigned accepts.signed
  | case3 place noRoom =>
      refine ⟨[], .none fun later behind payload accepts => ?_, rfl⟩
      have room := accepts.room
      omega

theorem deflates_of_leftmost {entries : List Entry} (leftmost : Leftmost probe data 0 entries) :
    deflates probe data = entries.map Entry.payload := by
  obtain ⟨found, also, payloads⟩ := exists_leftmost probe data 0
  rw [leftmost.unique also, ← payloads]
  rfl

/-- The search finds the payloads of just the entries that are taken from the left.  So every
accepted place is inside of an entry that is found, which begins there or before; no such entry
begins before the end of the one before it; and the payloads are inside of the data, in order and
apart. -/
theorem deflates_exhaustive (inside : probe.StaysInside data) :
    ∃ entries, (∀ others, Leftmost probe data 0 others ↔ others = entries) ∧
      deflates probe data = entries.map Entry.payload ∧
      (∀ place payload, Accepts probe data place payload →
        ∃ entry ∈ entries, entry.place ≤ place ∧ place < entry.payload.stop) ∧
      entries.Pairwise (fun first second => first.payload.stop ≤ second.place) ∧
      (∀ extent ∈ deflates probe data, extent.stop ≤ data.size) ∧
      (deflates probe data).Pairwise fun first second =>
        first.offset < second.offset ∧ first.stop ≤ second.offset := by
  obtain ⟨entries, leftmost, -⟩ := exists_leftmost probe data 0
  have found := deflates_of_leftmost leftmost
  refine ⟨entries, fun others => ⟨fun also => also.unique leftmost, ?_⟩, found,
    fun place payload => leftmost.covered (Nat.zero_le place), leftmost.pairwise, ?_, ?_⟩
  · rintro rfl
    exact leftmost
  · intro extent located
    obtain ⟨sizes, run, length⟩ := measured_of_deflates located
    rw [Extent.stop, ← length]
    exact inside _ _ run
  · rw [found, List.pairwise_map]
    refine (leftmost.pairwise).imp_of_mem fun {first second} firstMember secondMember apart => ?_
    have begins := (leftmost.accepts secondMember).start
    have short : first.payload.offset ≤ first.payload.stop := Nat.le_add_right _ _
    rw [fixedHeaderSize] at begins
    omega

/-- A signature, and right after it the header of an entry that stores the letter a. -/
def signatureAndEntry : Bytes :=
  #[80, 75, 3, 4] ++
    #[80, 75, 3, 4, 20, 0, 0, 0, 8, 0, 0, 0, 0, 0, 0, 0, 0, 0, 0, 0, 0, 0, 0, 0, 0, 0, 0, 0, 0, 0] ++
      (storedStream [97]).toArray

/-- The first signature is passed over and the second one is found. -/
theorem deflates_exhaustive_signatureAndEntry :
    Probe.inflating.StaysInside signatureAndEntry ∧
      deflates Probe.inflating signatureAndEntry = [⟨34, 6⟩] := by
  have inside := Probe.staysInside_inflating signatureAndEntry
  obtain ⟨entries, all, found, -⟩ := deflates_exhaustive inside
  have stands : storedStream [97] <+: signatureAndEntry.rest 34 := by decide
  have measured : Measured Probe.inflating signatureAndEntry ⟨34, 6⟩ :=
    Probe.measuresWhole_inflating (completeStream_stored (by decide)) stands
  have leftmost : Leftmost Probe.inflating signatureAndEntry 0 [⟨4, ⟨34, 6⟩⟩] := by
    refine .next (Nat.zero_le 4)
      ⟨by decide, by decide, by decide, by decide, by decide, measured⟩ ?_ (.none ?_)
    · intro earlier _ before payload accepts
      obtain rfl | rfl | rfl | rfl : earlier = 0 ∨ earlier = 1 ∨ earlier = 2 ∨ earlier = 3 := by
        change earlier < 4 at before
        omega
      · exact absurd accepts.deflated (by decide)
      all_goals exact absurd accepts.signed (by decide)
    · intro later behind payload accepts
      have room : later + 30 ≤ 40 := accepts.room
      change 40 ≤ later at behind
      omega
  rw [found, ← (all _).mp leftmost]
  exact ⟨inside, rfl⟩

end Zip

end DeflateAtlas
