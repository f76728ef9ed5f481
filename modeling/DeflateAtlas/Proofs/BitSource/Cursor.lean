import DeflateAtlas.Proofs.BitSource.Reading
import DeflateAtlas.Proofs.Dialogue

/-!
# A bit source is a cursor over a list of bits

Requests to a source can be made in any order, and go on after some of them failed.
Whatever the source has loaded, it answers as a cursor does that only knows the bits
of the buffer and how many of them are taken: every number is read off the bits from
the cursor on, the first one lowest.  Some requests are allowed only for a source
that has loaded enough, and whole bytes only at byte boundaries.
-/

namespace DeflateAtlas.BitSource

open Server (report report_of_ok report_of_error)

/-! ## Requests to a source -/

/-- What is asked of a source. -/
inductive Request
  | get (width : Nat)
  | padding
  | skip (width : Nat)
  /-- Load bytes ahead of time. -/
  | refill
  /-- Look at the next eight bits, which stay in place. -/
  | look
  /-- Take bits that are loaded. -/
  | consume (width : Nat)
  | byte
  deriving DecidableEq, Repr

/-- What is answered. -/
inductive Answer
  | number (value : Nat)
  /-- The request is done and gives no number. -/
  | done
  | failed (failure : Failure)
  deriving DecidableEq, Repr

/-- An answer is a failure of some kind. -/
def Answer.Fails (answer : Answer) (kind : FailureKind) : Prop :=
  ∃ failure, answer = .failed failure ∧ failure.kind = kind

/-- A source serves requests. -/
def serve : Server Request BitSource Answer
  | .get width => report .number .failed (getBits width)
  | .padding => report (fun byte => .number byte.toNat) .failed getPadding
  | .skip width => report (fun () => .done) .failed (skip width)
  | .refill => fun source => (.done, source.fill)
  | .look => fun source => (.number source.lowByte.toNat, source)
  | .consume width => fun source => (.done, source.discard width)
  | .byte => report (fun byte => .number byte.toNat) .failed getByte

/-- Only loaded bits are looked at or taken unread, and whole bytes only at byte boundaries. -/
def Allowed : Request → BitSource → Prop
  | .look, source => 8 ≤ source.count
  | .consume width, source => width ≤ 32 ∧ width ≤ source.count
  | .byte, source => source.offset % 8 = 0
  | .get _, _ | .padding, _ | .skip _, _ | .refill, _ => True

instance : (request : Request) → (source : BitSource) → Decidable (Allowed request source)
  | .look, source => inferInstanceAs (Decidable (8 ≤ source.count))
  | .consume width, source => inferInstanceAs (Decidable (width ≤ 32 ∧ width ≤ source.count))
  | .byte, source => inferInstanceAs (Decidable (source.offset % 8 = 0))
  | .get _, _ | .padding, _ | .skip _, _ | .refill, _ => inferInstanceAs (Decidable True)

/-! ## The cursor -/

namespace Cursor

/-- The number that `width` bits from a place on spell, the first one lowest. -/
def number (bits : List Bool) (place width : Nat) : Nat :=
  bitsValue ((bits.drop place).take width)

/-- Take `width` bits, or fail and take nothing if there are fewer left. -/
def take (bits : List Bool) (width : Nat) (short : Failure) (answer : Answer) (place : Nat) :
    Answer × Nat :=
  if bits.length - place < width then (.failed short, place) else (answer, place + width)

/-- A cursor is a place among bits; nothing is ever loaded. -/
def serve (bits : List Bool) : Server Request Nat Answer
  | .get width => fun place =>
      if 32 < width then
        (.failed .readTooWide, place)
      else
        take bits width .endOfBits (.number (number bits place width)) place
  | .padding => fun place =>
      (.number (number bits place (paddingWidth place)), place + paddingWidth place)
  | .skip width => take bits width .skipPastEnd .done
  | .refill => fun place => (.done, place)
  | .look => fun place => (.number (number bits place 8), place)
  | .consume width => fun place => (.done, place + width)
  | .byte => fun place => take bits 8 .endOfBits (.number (number bits place 8)) place

variable {bits : List Bool} {width place : Nat} {short failure : Failure} {answer : Answer}

theorem take_fails_iff {kind : FailureKind} (gives : ∀ failure, answer ≠ .failed failure) :
    (take bits width short answer place).1.Fails kind ↔
      short.kind = kind ∧ bits.length - place < width := by
  unfold take Answer.Fails
  split
  · rename_i few
    simp [few]
  · rename_i available
    simp [available, gives]

theorem take_of_failed (gives : ∀ failure, answer ≠ .failed failure)
    (failed : (take bits width short answer place).1 = .failed failure) :
    (take bits width short answer place).2 = place := by
  unfold take at failed ⊢
  split
  · rfl
  · rename_i available
    rw [if_neg available] at failed
    exact absurd failed (gives failure)

/-- A request that fails takes nothing. -/
theorem serve_of_failed {request : Request}
    (failed : (serve bits request place).1 = .failed failure) :
    (serve bits request place).2 = place := by
  cases request with
  | get width =>
      by_cases wide : 32 < width
      · simp only [serve, if_pos wide]
      · simp only [serve, if_neg wide] at failed ⊢
        exact take_of_failed nofun failed
  | skip width => exact take_of_failed nofun failed
  | byte => exact take_of_failed nofun failed
  | padding => cases failed
  | refill => cases failed
  | look => cases failed
  | consume width => cases failed

end Cursor

/-! ## One request -/

/-- A source stands at a place among the bits of its buffer. -/
structure StandsAt (bits : List Bool) (source : BitSource) (place : Nat) : Prop where
  wellFormed : source.WellFormed
  bits_eq : bitsOfBytes source.data.toList = bits
  offset_eq : source.offset = place

theorem standsAt_start (data : Bytes) :
    StandsAt (bitsOfBytes data.toList) (ofBytes data) 0 :=
  ⟨wellFormed_ofBytes data, rfl, rfl⟩

namespace StandsAt

variable {bits : List Bool} {source after : BitSource} {place : Nat}

theorem rest_eq (stands : StandsAt bits source place) : bits.drop place = source.bits := by
  rw [← stands.bits_eq, ← stands.offset_eq, stands.wellFormed.bits_eq]

theorem length_sub (stands : StandsAt bits source place) :
    bits.length - place = source.bits.length := by
  rw [← stands.rest_eq, List.length_drop]

theorem taken (stands : StandsAt bits source place) {width : Nat}
    (takes : Takes source after width) : StandsAt bits after (place + width) where
  wellFormed := takes.wellFormed
  bits_eq := by rw [takes.data, stands.bits_eq]
  offset_eq := by rw [takes.offset, stands.offset_eq]

theorem kept (stands : StandsAt bits source place) (takes : Takes source after 0) :
    StandsAt bits after place :=
  stands.taken takes

end StandsAt

/-- Two sources stand at the same place in the same data; what they have loaded may differ. -/
def SamePlace (source other : BitSource) : Prop :=
  ∃ bits place, StandsAt bits source place ∧ StandsAt bits other place

namespace SamePlace

variable {source other : BitSource}

theorem bits_eq (same : SamePlace source other) : other.bits = source.bits := by
  obtain ⟨bits, place, stands, otherStands⟩ := same
  rw [← stands.rest_eq, ← otherStands.rest_eq]

theorem taken {after otherAfter : BitSource} {width : Nat} (same : SamePlace source other)
    (takes : Takes source after width) (otherTakes : Takes other otherAfter width) :
    SamePlace after otherAfter := by
  obtain ⟨bits, place, stands, otherStands⟩ := same
  exact ⟨bits, place + width, stands.taken takes, otherStands.taken otherTakes⟩

end SamePlace

/-- An action that takes `width` bits if there are so many does what the cursor does. -/
theorem StandsAt.report_take {α : Type} {reply : α → Answer} {action : Action α}
    {source : BitSource} {bits : List Bool} {place width : Nat} {value : α} {short : Failure}
    (stands : StandsAt bits source place)
    (enough : width ≤ source.bits.length →
      ∃ after, action source = .ok value after ∧ Takes source after width)
    (few : source.bits.length < width →
      ∃ after, action source = .error short after ∧ Takes source after 0) :
    (report reply .failed action source).1 = (Cursor.take bits width short (reply value) place).1 ∧
      StandsAt bits (report reply .failed action source).2
        (Cursor.take bits width short (reply value) place).2 := by
  rw [Cursor.take, stands.length_sub]
  by_cases less : source.bits.length < width
  · obtain ⟨after, run, takes⟩ := few less
    rw [report_of_error run, if_pos less]
    exact ⟨rfl, stands.kept takes⟩
  · obtain ⟨after, run, takes⟩ := enough (Nat.le_of_not_lt less)
    rw [report_of_ok run, if_neg less]
    exact ⟨rfl, stands.taken takes⟩

/-- A source answers every request that is allowed as a cursor does. -/
theorem serve_simulates (bits : List Bool) :
    Server.Simulates serve Allowed (Cursor.serve bits) (StandsAt bits) := by
  intro request source place stands allowed
  have wellFormed := stands.wellFormed
  have rest := stands.rest_eq
  cases request with
  | get width =>
      simp only [serve, Cursor.serve, Cursor.number, rest]
      by_cases wide : 32 < width
      · rw [report_of_error (getBits_of_wide wide), if_pos wide]
        exact ⟨rfl, stands⟩
      · rw [if_neg wide]
        have narrow := Nat.le_of_not_lt wide
        exact stands.report_take (getBits_of_le wellFormed narrow) (getBits_of_lt wellFormed narrow)
  | padding =>
      obtain ⟨after, run, takes⟩ := getPadding_eq wellFormed
      rw [wellFormed.length_bits_mod, stands.offset_eq] at run takes
      have narrow : (source.bits.take (paddingWidth place)).length ≤ 8 :=
        Nat.le_trans (List.length_take_le _ _) (Nat.le_of_lt (paddingWidth_lt place))
      have value := toNat_toUInt8 (bitsValue_lt _) narrow
      rw [serve, report_of_ok run, value, ← rest]
      exact ⟨rfl, stands.taken takes⟩
  | skip width =>
      exact stands.report_take (skip_of_le wellFormed)
        fun few => ⟨source, skip_of_lt few, Takes.refl wellFormed⟩
  | refill => exact ⟨rfl, stands.kept wellFormed.takes_fill⟩
  | look =>
      have value : source.lowByte.toNat = Cursor.number bits place 8 := by
        rw [Cursor.number, rest, ← lowBits_lowByte allowed, bitsValue_lowBits,
          Nat.mod_eq_of_lt source.lowByte.toNat_lt]
      have answered : serve .look source = (.number (Cursor.number bits place 8), source) := by
        rw [← value]
        rfl
      rw [answered]
      exact ⟨rfl, stands⟩
  | consume width =>
      have narrow : width < 64 := Nat.lt_of_le_of_lt allowed.1 (by decide)
      exact ⟨rfl, stands.taken (wellFormed.takes_discard narrow allowed.2)⟩
  | byte =>
      have value : (bitsValue (source.bits.take 8)).toUInt8.toNat = Cursor.number bits place 8 := by
        rw [Cursor.number, rest, toNat_toUInt8 (bitsValue_lt _) (List.length_take_le 8 _)]
      have served : Cursor.serve bits .byte place =
          Cursor.take bits 8 .endOfBits (.number (Cursor.number bits place 8)) place := rfl
      rw [served, ← value]
      exact stands.report_take (getByte_of_le wellFormed) (getByte_of_lt wellFormed)

/-! ## What is seen of a source -/

/-- The source that requests leave from the start of a buffer on. -/
def reached (data : Bytes) (requests : List Request) : BitSource :=
  serve.left requests (ofBytes data)

/-- Two sources answer alike and stay at the same place, whatever is asked of them that is allowed
for both. -/
def Indistinguishable (source other : BitSource) : Prop :=
  ∀ later, serve.Respects Allowed later source → serve.Respects Allowed later other →
    serve.answers later source = serve.answers later other ∧
      (serve.left later source).offset = (serve.left later other).offset ∧
      (serve.left later source).remaining = (serve.left later other).remaining

/-- After some requests, a source cannot be told from a cursor over the bits of its buffer. -/
structure RefinesCursor (data : Bytes) (requests : List Request) : Prop where
  answers_eq : serve.answers requests (ofBytes data) =
    (Cursor.serve (bitsOfBytes data.toList)).answers requests 0
  /-- The source stands behind the bits that it gave or skipped. -/
  offset_eq : (reached data requests).offset =
    (Cursor.serve (bitsOfBytes data.toList)).left requests 0
  remaining_add_offset : (reached data requests).remaining + (reached data requests).offset =
    8 * data.size
  get_fails_iff : ∀ width kind, (serve (.get width) (reached data requests)).1.Fails kind ↔
    kind = .invalidParameter ∧ 32 < width ∨
      kind = .shortRead ∧ 1 ≤ width ∧ width ≤ 32 ∧ (reached data requests).remaining < width
  skip_fails_iff : ∀ width kind, (serve (.skip width) (reached data requests)).1.Fails kind ↔
    kind = .shortRead ∧ (reached data requests).remaining < width
  /-- A request that fails takes nothing, and makes no difference to anything later. -/
  kept_of_failed : ∀ request failure, Allowed request (reached data requests) →
    (serve request (reached data requests)).1 = .failed failure →
    (serve request (reached data requests)).2.offset = (reached data requests).offset ∧
      Indistinguishable (serve request (reached data requests)).2 (reached data requests)
  /-- Only the place of a source counts, not how it came there and what is loaded. -/
  unobservable : ∀ others, serve.Respects Allowed others (ofBytes data) →
    (reached data others).offset = (reached data requests).offset →
    Indistinguishable (reached data others) (reached data requests)

theorem SamePlace.indistinguishable {source other : BitSource} (same : SamePlace source other) :
    Indistinguishable source other := by
  intro later respects otherRespects
  obtain ⟨bits, place, stands, otherStands⟩ := same
  obtain ⟨answered, last⟩ := (serve_simulates bits).dialogue stands respects
  obtain ⟨otherAnswered, otherLast⟩ := (serve_simulates bits).dialogue otherStands otherRespects
  refine ⟨answered.trans otherAnswered.symm, last.offset_eq.trans otherLast.offset_eq.symm, ?_⟩
  rw [← length_bits, ← length_bits, ← last.length_sub, ← otherLast.length_sub]

theorem StandsAt.get_fails_iff {bits : List Bool} {source : BitSource} {place : Nat}
    (stands : StandsAt bits source place) (width : Nat) (kind : FailureKind) :
    (serve (.get width) source).1.Fails kind ↔
      kind = .invalidParameter ∧ 32 < width ∨
        kind = .shortRead ∧ 1 ≤ width ∧ width ≤ 32 ∧ source.remaining < width := by
  have allowed : Allowed (.get width) source := trivial
  rw [(serve_simulates bits stands allowed).1, ← length_bits, ← stands.length_sub]
  simp only [Cursor.serve]
  by_cases wide : 32 < width
  · have narrow : ¬ width ≤ 32 := Nat.not_le.mpr wide
    simp [Answer.Fails, wide, narrow, Failure.kind, eq_comm]
  · rw [if_neg wide]
    rw [Cursor.take_fails_iff (by nofun)]
    simp only [wide, and_false, false_or, Failure.kind, eq_comm]
    apply and_congr_right
    intro _
    omega

theorem StandsAt.skip_fails_iff {bits : List Bool} {source : BitSource} {place : Nat}
    (stands : StandsAt bits source place) (width : Nat) (kind : FailureKind) :
    (serve (.skip width) source).1.Fails kind ↔
      kind = .shortRead ∧ source.remaining < width := by
  have allowed : Allowed (.skip width) source := trivial
  rw [(serve_simulates bits stands allowed).1, ← length_bits, ← stands.length_sub, Cursor.serve,
    Cursor.take_fails_iff (by nofun)]
  simp only [Failure.kind, eq_comm]

/-- Whatever is asked of a source, it answers as a cursor over the bits of its buffer. -/
theorem refines_cursor (data : Bytes) (requests : List Request)
    (respects : serve.Respects Allowed requests (ofBytes data)) :
    RefinesCursor data requests := by
  have simulates := serve_simulates (bitsOfBytes data.toList)
  obtain ⟨answered, stands⟩ := simulates.dialogue (standsAt_start data) respects
  exact {
    answers_eq := answered
    offset_eq := stands.offset_eq
    remaining_add_offset := by
      have whole := stands.wellFormed.offset_add_remaining
      have bits := congrArg List.length stands.bits_eq
      simp only [length_bitsOfBytes, Array.length_toList] at bits
      rw [reached]
      omega
    get_fails_iff := stands.get_fails_iff
    skip_fails_iff := stands.skip_fails_iff
    kept_of_failed := by
      intro request failure allowed failed
      obtain ⟨same, after⟩ := simulates stands allowed
      rw [Cursor.serve_of_failed (same.symm.trans failed)] at after
      have same : SamePlace _ _ := ⟨_, _, after, stands⟩
      exact ⟨after.offset_eq.trans stands.offset_eq.symm, same.indistinguishable⟩
    unobservable := by
      intro others otherRespects together
      obtain ⟨-, otherStands⟩ := simulates.dialogue (standsAt_start data) otherRespects
      have samePlace := otherStands.offset_eq.symm.trans (together.trans stands.offset_eq)
      rw [samePlace] at otherStands
      exact SamePlace.indistinguishable ⟨_, _, otherStands, stands⟩ }

/-- Bits and bytes are taken in turn, with and without looking; three requests fail. -/
theorem refines_cursor_interleaved :
    let data : Bytes := #[166, 255, 1]
    let requests : List Request :=
      [.get 1, .look, .consume 2, .get 5, .byte, .get 1, .get 8, .skip 9, .padding, .byte]
    serve.Respects Allowed requests (ofBytes data) ∧
      serve.answers requests (ofBytes data) =
        [.number 0, .number 211, .done, .number 20, .number 255, .number 1, .failed .endOfBits,
          .failed .skipPastEnd, .number 0, .failed .endOfBits] ∧
      (reached data requests).offset = 24 := by
  intro data requests
  have respects : serve.Respects Allowed requests (ofBytes data) := by decide +kernel
  have refines := refines_cursor data requests respects
  exact ⟨respects, refines.answers_eq.trans (by decide), refines.offset_eq.trans (by decide)⟩

end DeflateAtlas.BitSource
