import DeflateAtlas.Proofs.Container.ZlibPayload

/-!
# What a zlib stream is taken for

Where the payload of a zlib stream lies is read off the two bytes that begin it, and off
nothing else if its extent holds these.  But they are read before anybody asks how long
the extent is.  So a shorter extent is judged by bytes that are not its own, and one that
ends a stream fails because the stream ends, not because it is too short.
-/

namespace DeflateAtlas

namespace Survey

variable {τ σ α β : Type}

/-- What a survey gives, or the kind of its failure. -/
def verdict (survey : Survey τ σ α) (bench : Workbench τ σ) : Except FailureKind α :=
  (survey.answer bench).mapError Failure.kind

variable {bench after : Workbench τ σ}

theorem verdict_of_ok {survey : Survey τ σ α} {value : α}
    (ended : survey bench = .ok value after) : survey.verdict bench = .ok value := by
  rw [verdict, answer_of_ok ended]
  rfl

theorem verdict_of_error {survey : Survey τ σ α} {failure : Failure}
    (ended : survey bench = .error failure after) :
    survey.verdict bench = .error failure.kind := by
  rw [verdict, answer_of_error ended]
  rfl

theorem verdict_fail (failure : Failure) (bench : Workbench τ σ) :
    (fail failure : Survey τ σ α).verdict bench = .error failure.kind :=
  rfl

section Bind

variable {action : Survey τ σ α} {next : α → Survey τ σ β}

theorem verdict_bind_of_ok {value : α} (run : action bench = .ok value after) :
    (action >>= next).verdict bench = (next value).verdict after := by
  simp only [verdict, answer, outcome, bind_of_ok run]

theorem verdict_bind_of_error {kind : FailureKind} (refused : action.verdict bench = .error kind) :
    (action >>= next).verdict bench = .error kind := by
  cases run : action bench with
  | ok value after =>
      rw [verdict_of_ok run] at refused
      cases refused
  | error failure after =>
      rw [verdict_of_error run] at refused
      cases refused
      exact verdict_of_error (bind_of_error run)

theorem verdict_bind {rest : α → Except FailureKind β}
    (same : ∀ value after, (next value).verdict after = rest value) :
    (action >>= next).verdict bench = action.verdict bench >>= rest := by
  cases run : action bench with
  | ok value after =>
      rw [verdict_bind_of_ok run, verdict_of_ok run]
      exact same value after
  | error failure after =>
      rw [verdict_bind_of_error (verdict_of_error run), verdict_of_error run]
      rfl

end Bind

/-! ## Reads -/

variable [ByteStream σ] [LawfulStream σ] {content : Bytes} {readable : Bool} {place length : Nat}
  {seen : StreamView}

theorem verdict_read_of_grants (viewed : LawfulStream.view bench.stream = some seen)
    (granted : seen.Grants length) :
    (onStream (ByteStream.read length) : Survey τ σ Bytes).verdict bench =
      .ok (seen.content.slice seen.place length) := by
  obtain ⟨left, run, -⟩ := LawfulStream.read_of_le viewed granted.1 granted.2
  have ended : (onStream (ByteStream.read length) : Survey τ σ Bytes) bench =
      .ok (seen.content.slice seen.place length) { bench with stream := left } := by
    simp only [onStream, run]
  exact verdict_of_ok ended

variable [PredictableStream σ] [UniformStream σ]

theorem verdict_read_of_refused (viewed : LawfulStream.view bench.stream = some seen)
    (known : seen.place ≤ seen.content.size) (refused : ¬ seen.Grants length) :
    (onStream (ByteStream.read length) : Survey τ σ Bytes).verdict bench =
      .error (seen.refusalKind length) := by
  obtain ⟨left, run⟩ := PredictableStream.read_of_refused viewed known refused
  have ended : (onStream (ByteStream.read length) : Survey τ σ Bytes) bench =
      .error (PredictableStream.refusal σ seen length) { bench with stream := left } := by
    simp only [onStream, run]
  rw [verdict_of_error ended, UniformStream.kind_refusal viewed]

theorem verdict_readAt_of_refused (shows : Shows bench.stream content readable)
    (inside : place ≤ content.size)
    (refused : ¬ StreamView.Grants ⟨content, place, readable⟩ length) :
    (readAt place length : Survey τ σ Bytes).verdict bench =
      .error (StreamView.refusalKind ⟨content, place, readable⟩ length) := by
  obtain ⟨sought, seek, viewed⟩ := seek_of_shows shows inside
  rw [readAt, verdict_bind_of_ok seek]
  exact verdict_read_of_refused viewed inside refused

end Survey

namespace Zlib

open Survey

/-! ## The verdict in terms of the bytes -/

section Verdict

variable {τ σ : Type} [ByteStream σ] [LawfulStream σ] [PredictableStream σ] [UniformStream σ]
  {bench : Workbench τ σ} {content : Bytes} {readable : Bool} {place : Nat} {zlib : ByteExtent}

/-- The header that begins at a place of a stream, or why it cannot be read. -/
def headerVerdict (content : Bytes) (readable : Bool) (place : Nat) : Except FailureKind Header :=
  if readable = false then
    .error .osError
  else if content.size < place + 2 then
    .error .shortRead
  else
    match headerAt content place with
    | .error failure => .error failure.kind
    | .ok header => if content.size < place + header.size then .error .shortRead else .ok header

/-- The payload of a zlib stream whose extent lies within a stream, or why there is none. -/
def payloadVerdict (content : Bytes) (readable : Bool) (zlib : ByteExtent) :
    Except FailureKind ByteExtent := do
  let header ← headerVerdict content readable zlib.offset
  if zlib.length < header.size + trailerSize then
    .error .outOfBounds
  else
    return ⟨zlib.offset + header.size, zlib.length - (header.size + trailerSize)⟩

theorem verdict_readHeader (shows : Shows bench.stream content readable)
    (inside : place ≤ content.size) :
    (readHeader place : Survey τ σ Header).verdict bench =
      headerVerdict content readable place := by
  rw [readHeader, headerVerdict]
  by_cases granted : StreamView.Grants ⟨content, place, readable⟩ 2
  · obtain ⟨allowed, room⟩ := granted
    obtain rfl : readable = true := allowed.resolve_right (by decide)
    obtain ⟨stream, read, viewed⟩ := readAt_stands shows room allowed
    rw [verdict_bind_of_ok read, Bytes.getD_slice room Nat.two_pos,
      Bytes.getD_slice room Nat.one_lt_two, Nat.add_zero, ← headerAt, if_neg (by decide),
      if_neg (Nat.not_lt.mpr room)]
    cases headerAt content place with
    | error failure => rfl
    | ok header =>
        dsimp only
        rw [Header.size]
        cases header.hasDictionary with
        | false => exact (if_neg (Nat.not_lt.mpr room)).symm
        | true =>
            -- The number of the dictionary is read and dropped: only its length matters.
            rw [if_pos rfl, if_pos rfl, verdict_bind fun _ _ => rfl]
            by_cases more : StreamView.Grants ⟨content, place + 2, true⟩ 4
            · rw [verdict_read_of_grants viewed more, if_neg (Nat.not_lt.mpr more.2)]
              rfl
            · have beyond : content.size < place + 2 + 4 :=
                Nat.lt_of_not_le fun room => more ⟨.inl rfl, room⟩
              rw [verdict_read_of_refused viewed room more, if_pos beyond]
              rfl
  · rw [verdict_bind_of_error (verdict_readAt_of_refused shows inside granted)]
    cases readable with
    | false => rfl
    | true =>
        have beyond : content.size < place + 2 :=
          Nat.lt_of_not_le fun room => granted ⟨.inl rfl, room⟩
        rw [if_neg (by decide), if_pos beyond]
        rfl

theorem verdict_payload (shows : Shows bench.stream content readable)
    (within : zlib.endsWithin content.size) :
    (payload zlib : Survey τ σ ByteExtent).verdict bench =
      payloadVerdict content readable zlib := by
  have stop := (Extent.endsWithin_iff.mp within).2
  have inside := Nat.le_trans (Nat.le_add_right _ _) stop
  rw [payload, verdict_bind_of_ok (size_of_shows shows), if_neg (not_not_intro within),
    payloadVerdict, ← verdict_readHeader shows inside]
  refine verdict_bind fun header after => ?_
  split
  · exact verdict_fail _ _
  · rfl

end Verdict

/-! ## Each verdict -/

section Verdicts

variable {content : Bytes} {readable : Bool} {place : Nat} {zlib deflate : ByteExtent}

/-- A stream ends within the header that begins at a place. -/
def HeaderCutOff (content : Bytes) (place : Nat) : Prop :=
  content.size < place + 2 ∨
    ∃ header, headerAt content place = .ok header ∧ content.size < place + header.size

/-- A header lies within a stream. -/
def HeaderWithin (content : Bytes) (place : Nat) (header : Header) : Prop :=
  headerAt content place = .ok header ∧ place + header.size ≤ content.size

theorem Header.size_eq (header : Header) : header.size = 2 ∨ header.size = 6 := by
  rw [Header.size]
  cases header.hasDictionary with
  | true => exact .inr rfl
  | false => exact .inl rfl

theorem Header.kind_of_parse {first second : UInt8} {failure : Failure}
    (failed : Header.parse first second = .error failure) : failure.kind = .invalidZlibHeader := by
  rw [Header.parse] at failed
  split at failed
  · cases failed
    rfl
  · split at failed
    · cases failed
      rfl
    · split at failed
      · cases failed
        rfl
      · cases failed

/-- A header that is cut off does not fit into an extent within the stream. -/
theorem HeaderCutOff.length_lt (cutOff : HeaderCutOff content zlib.offset)
    (within : zlib.endsWithin content.size) : zlib.length < 6 := by
  have stop := (Extent.endsWithin_iff.mp within).2
  rw [Extent.stop] at stop
  rcases cutOff with short | ⟨header, -, short⟩
  · omega
  · have size := header.size_eq
    omega

theorem HeaderWithin.not_cutOff {header : Header} (inside : HeaderWithin content place header) :
    ¬ HeaderCutOff content place := by
  obtain ⟨read, room⟩ := inside
  rintro (short | ⟨other, also, short⟩)
  · have size := header.size_eq
    omega
  · rw [read] at also
    cases also
    omega

/-- A header that may be read is cut off, is no header, or lies within the stream. -/
theorem headerVerdict_cases (content : Bytes) (place : Nat) :
    (HeaderCutOff content place ∧ headerVerdict content true place = .error .shortRead) ∨
      (¬ HeaderCutOff content place ∧ (∃ failure, headerAt content place = .error failure) ∧
        headerVerdict content true place = .error .invalidZlibHeader) ∨
      ∃ header, HeaderWithin content place header ∧
        headerVerdict content true place = .ok header := by
  rw [headerVerdict, if_neg (by decide)]
  by_cases short : content.size < place + 2
  · exact .inl ⟨.inl short, if_pos short⟩
  rw [if_neg short]
  cases parsed : headerAt content place with
  | error failure =>
      refine .inr (.inl ⟨?_, ⟨failure, rfl⟩, congrArg _ (Header.kind_of_parse parsed)⟩)
      rintro (tooShort | ⟨header, read, -⟩)
      · exact short tooShort
      · rw [parsed] at read
        cases read
  | ok header =>
      by_cases cut : content.size < place + header.size
      · exact .inl ⟨.inr ⟨header, parsed, cut⟩, if_pos cut⟩
      · exact .inr (.inr ⟨header, ⟨parsed, Nat.le_of_not_lt cut⟩, if_neg cut⟩)

theorem payloadVerdict_of_error {kind : FailureKind}
    (refused : headerVerdict content readable zlib.offset = .error kind) :
    payloadVerdict content readable zlib = .error kind := by
  rw [payloadVerdict, refused]
  rfl

theorem payloadVerdict_of_ok {header : Header}
    (read : headerVerdict content readable zlib.offset = .ok header) :
    payloadVerdict content readable zlib =
      if zlib.length < header.size + trailerSize then
        .error .outOfBounds
      else
        .ok ⟨zlib.offset + header.size, zlib.length - (header.size + trailerSize)⟩ := by
  rw [payloadVerdict, read]
  rfl

theorem payloadVerdict_eq_shortRead_iff :
    payloadVerdict content readable zlib = .error .shortRead ↔
      readable = true ∧ HeaderCutOff content zlib.offset := by
  cases readable with
  | false => exact iff_of_false nofun nofun
  | true =>
      rcases headerVerdict_cases content zlib.offset with
        ⟨cutOff, refused⟩ | ⟨whole, -, refused⟩ | ⟨header, inside, read⟩
      · exact iff_of_true (payloadVerdict_of_error refused) ⟨rfl, cutOff⟩
      · rw [payloadVerdict_of_error refused]
        exact iff_of_false nofun fun both => whole both.2
      · rw [payloadVerdict_of_ok read]
        refine iff_of_false ?_ fun both => inside.not_cutOff both.2
        split
        · nofun
        · nofun

theorem payloadVerdict_eq_outOfBounds_iff :
    payloadVerdict content readable zlib = .error .outOfBounds ↔
      readable = true ∧ ∃ header, HeaderWithin content zlib.offset header ∧
        zlib.length < header.size + trailerSize := by
  cases readable with
  | false => exact iff_of_false nofun nofun
  | true =>
      rcases headerVerdict_cases content zlib.offset with
        ⟨cutOff, refused⟩ | ⟨-, ⟨failure, invalid⟩, refused⟩ | ⟨header, inside, read⟩
      · rw [payloadVerdict_of_error refused]
        refine iff_of_false nofun ?_
        rintro ⟨-, header, inside, -⟩
        exact inside.not_cutOff cutOff
      · rw [payloadVerdict_of_error refused]
        refine iff_of_false nofun ?_
        rintro ⟨-, header, ⟨parsed, -⟩, -⟩
        rw [invalid] at parsed
        cases parsed
      · rw [payloadVerdict_of_ok read]
        by_cases short : zlib.length < header.size + trailerSize
        · exact iff_of_true (if_pos short) ⟨rfl, header, inside, short⟩
        · rw [if_neg short]
          refine iff_of_false nofun ?_
          rintro ⟨-, other, ⟨parsed, -⟩, otherShort⟩
          rw [inside.1] at parsed
          cases parsed
          exact short otherShort

theorem length_of_payloadVerdict (found : payloadVerdict content readable zlib = .ok deflate) :
    6 ≤ zlib.length := by
  obtain ⟨header, -, found⟩ := Except.bind_eq_ok_iff.mp found
  have size := header.size_eq
  by_cases short : zlib.length < header.size + trailerSize
  · rw [if_pos short] at found
    cases found
  · rw [trailerSize] at short
    omega

end Verdicts

/-! ## Two streams -/

section TwoStreams

variable {first second : Bytes} {readable : Bool} {zlib : ByteExtent}

/-- Two buffers of one size hold the same bytes in an extent within them. -/
structure AgreeWithin (zlib : ByteExtent) (first second : Bytes) : Prop where
  size_eq : first.size = second.size
  within : zlib.endsWithin first.size
  slice_eq : first.slice zlib.offset zlib.length = second.slice zlib.offset zlib.length

namespace AgreeWithin

variable (agree : AgreeWithin zlib first second)
include agree

theorem symm : AgreeWithin zlib second first where
  size_eq := agree.size_eq.symm
  within := agree.size_eq ▸ agree.within
  slice_eq := agree.slice_eq.symm

theorem getD_eq {index : Nat} (inside : index < zlib.length) (missing : UInt8) :
    first.getD (zlib.offset + index) missing = second.getD (zlib.offset + index) missing := by
  have room := (Extent.endsWithin_iff.mp agree.within).2
  have otherRoom := (Extent.endsWithin_iff.mp agree.symm.within).2
  rw [← Bytes.getD_slice room inside, ← Bytes.getD_slice otherRoom inside, agree.slice_eq]

/-- What is made of a zlib stream depends on its own bytes if it has the two that begin it. -/
theorem payloadVerdict_eq (begun : 2 ≤ zlib.length) :
    payloadVerdict first readable zlib = payloadVerdict second readable zlib := by
  have header : headerAt first zlib.offset = headerAt second zlib.offset := by
    have low := agree.getD_eq (Nat.lt_of_lt_of_le Nat.two_pos begun) 0
    have high := agree.getD_eq (Nat.lt_of_lt_of_le Nat.one_lt_two begun) 0
    rw [Nat.add_zero] at low
    rw [headerAt, headerAt, low, high]
  rw [payloadVerdict, payloadVerdict, headerVerdict, headerVerdict, agree.size_eq, header]

theorem payloadVerdict_eq_ok {deflate : ByteExtent}
    (found : payloadVerdict first readable zlib = .ok deflate) :
    payloadVerdict second readable zlib = .ok deflate := by
  have begun := Nat.le_trans (by decide : 2 ≤ 6) (length_of_payloadVerdict found)
  rwa [← agree.payloadVerdict_eq begun]

end AgreeWithin

variable {τ υ σ ρ : Type} [ByteStream σ] [LawfulStream σ] [PredictableStream σ] [UniformStream σ]
  [ByteStream ρ] [LawfulStream ρ] [PredictableStream ρ] [UniformStream ρ]

/-- In two streams of one size, zlib streams with the same bytes have the same payload or none.
They also fail for the same kind of reason if they have the two bytes that begin a header.
The end of the stream is the reason just if it cuts the header off, which it cannot do in an extent
of six bytes, and an extent is found too short just if its header is read. -/
theorem payload_agrees_within {bench : Workbench τ σ} {other : Workbench υ ρ}
    (shows : Shows bench.stream first readable) (otherShows : Shows other.stream second readable)
    (agree : AgreeWithin zlib first second) :
    (∀ deflate, (payload zlib : Survey τ σ ByteExtent).verdict bench = .ok deflate ↔
      (payload zlib : Survey υ ρ ByteExtent).verdict other = .ok deflate) ∧
    (2 ≤ zlib.length → (payload zlib : Survey τ σ ByteExtent).verdict bench =
      (payload zlib : Survey υ ρ ByteExtent).verdict other) ∧
    ((payload zlib : Survey τ σ ByteExtent).verdict bench = .error .shortRead ↔
      readable = true ∧ HeaderCutOff first zlib.offset) ∧
    (6 ≤ zlib.length → (payload zlib : Survey τ σ ByteExtent).verdict bench ≠ .error .shortRead) ∧
    ((payload zlib : Survey τ σ ByteExtent).verdict bench = .error .outOfBounds ↔
      readable = true ∧ ∃ header, HeaderWithin first zlib.offset header ∧
        zlib.length < header.size + trailerSize) := by
  rw [verdict_payload shows agree.within, verdict_payload otherShows agree.symm.within]
  refine ⟨fun deflate => ⟨agree.payloadVerdict_eq_ok, agree.symm.payloadVerdict_eq_ok⟩,
    agree.payloadVerdict_eq, payloadVerdict_eq_shortRead_iff, ?_, payloadVerdict_eq_outOfBounds_iff⟩
  intro long ranOut
  obtain ⟨-, cutOff⟩ := payloadVerdict_eq_shortRead_iff.mp ranOut
  exact Nat.not_lt.mpr long (cutOff.length_lt agree.within)

end TwoStreams

/-- A zlib stream with a dictionary, in a buffer and in a file with other bytes around it. -/
theorem payload_agrees_within_dictionary :
    let first : Bytes := #[255, 120, 32, 222, 173, 190, 239, 3, 0, 0, 0, 0, 1, 255]
    let second : Bytes := #[9, 120, 32, 222, 173, 190, 239, 3, 0, 0, 0, 0, 1, 120]
    let bench : Workbench PuffEncoder BufferStream := start .mk (.reading first)
    let other : Workbench PuffEncoder DiskStream := start .mk ⟨second, some ⟨0, true, false⟩⟩
    AgreeWithin ⟨1, 12⟩ first second ∧
      (payload ⟨1, 12⟩).verdict bench = .ok ⟨7, 2⟩ ∧
      (payload ⟨1, 12⟩).verdict other = .ok ⟨7, 2⟩ := by
  intro first second bench other
  have agree : AgreeWithin ⟨1, 12⟩ first second := ⟨rfl, by decide, by decide⟩
  have shows : Shows bench.stream first true := ⟨0, rfl⟩
  have otherShows : Shows other.stream second true := ⟨0, rfl⟩
  have found : (payload ⟨1, 12⟩).verdict bench = .ok ⟨7, 2⟩ := by
    rw [verdict_payload shows agree.within]
    decide +kernel
  obtain ⟨-, same, -⟩ := payload_agrees_within shows otherShows agree
  exact ⟨agree, found, (same (by decide)).symm.trans found⟩

/-- An extent of one byte fails because the stream ends, or else by the byte behind it. -/
theorem payload_foreign_byte :
    (payload ⟨0, 1⟩ : Survey PuffEncoder BufferStream ByteExtent).verdict
        (start .mk (BufferStream.reading #[120])) = .error .shortRead ∧
      AgreeWithin ⟨0, 1⟩ #[120, 156] #[120, 0] ∧
      (payload ⟨0, 1⟩ : Survey PuffEncoder BufferStream ByteExtent).verdict
        (start .mk (BufferStream.reading #[120, 156])) = .error .outOfBounds ∧
      (payload ⟨0, 1⟩ : Survey PuffEncoder BufferStream ByteExtent).verdict
        (start .mk (BufferStream.reading #[120, 0])) = .error .invalidZlibHeader :=
  ⟨rfl, ⟨rfl, by decide, by decide⟩, rfl, rfl⟩

end Zlib

end DeflateAtlas
