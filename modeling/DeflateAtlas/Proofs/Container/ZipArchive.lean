import DeflateAtlas.Proofs.Container.ZipScan

/-!
# Archives are read completely

An archive is written as one file after the other: a local header, name and extra
field, the payload, and bytes in which no signature occurs.  Whatever the header
says of sizes and checksum, and whatever bytes stand in names and payloads, the
search finds the payload of every file and nothing else, because after each payload
the next place with a signature is that of the next header.
-/

namespace DeflateAtlas.Zip

/-! ## Headers as they are written -/

namespace LocalHeader

/-- The fixed part of a header. -/
def bytes (header : LocalHeader) : List UInt8 :=
  toLittleEndian 4 header.signature ++ toLittleEndian 2 header.version ++
    toLittleEndian 2 header.flags ++ toLittleEndian 2 header.method ++
    toLittleEndian 2 header.time ++ toLittleEndian 2 header.date ++
    toLittleEndian 4 header.crc32.toNat ++ toLittleEndian 4 header.compressedSize ++
    toLittleEndian 4 header.uncompressedSize ++ toLittleEndian 2 header.nameLength ++
    toLittleEndian 2 header.extraLength

/-- There is room for the numbers of a header. -/
structure Fits (header : LocalHeader) : Prop where
  signature : header.signature < 256 ^ 4
  version : header.version < 256 ^ 2
  flags : header.flags < 256 ^ 2
  method : header.method < 256 ^ 2
  time : header.time < 256 ^ 2
  date : header.date < 256 ^ 2
  compressedSize : header.compressedSize < 256 ^ 4
  uncompressedSize : header.uncompressedSize < 256 ^ 4
  nameLength : header.nameLength < 256 ^ 2
  extraLength : header.extraLength < 256 ^ 2

theorem length_bytes (header : LocalHeader) : header.bytes.length = fixedHeaderSize := by
  simp only [bytes, List.length_append, length_toLittleEndian]
  rfl

/-- A header that has been written is decoded. -/
theorem decode_of_bytes {header : LocalHeader} (fits : header.Fits) {data : Bytes} {place : Nat}
    {behind : List UInt8} (stands : data.rest place = header.bytes ++ behind) :
    decode data place = header := by
  simp only [bytes, List.append_assoc] at stands
  obtain ⟨signature, stands⟩ := Bytes.field_of_append fits.signature stands
  obtain ⟨version, stands⟩ := Bytes.field_of_append fits.version stands
  obtain ⟨flags, stands⟩ := Bytes.field_of_append fits.flags stands
  obtain ⟨method, stands⟩ := Bytes.field_of_append fits.method stands
  obtain ⟨time, stands⟩ := Bytes.field_of_append fits.time stands
  obtain ⟨date, stands⟩ := Bytes.field_of_append fits.date stands
  obtain ⟨crc32, stands⟩ := Bytes.field_of_append header.crc32.toNat_lt stands
  obtain ⟨compressedSize, stands⟩ := Bytes.field_of_append fits.compressedSize stands
  obtain ⟨uncompressedSize, stands⟩ := Bytes.field_of_append fits.uncompressedSize stands
  obtain ⟨nameLength, stands⟩ := Bytes.field_of_append fits.nameLength stands
  obtain ⟨extraLength, -⟩ := Bytes.field_of_append fits.extraLength stands
  simp only [Nat.add_assoc, Nat.reduceAdd] at *
  simp only [decode, signature, version, flags, method, time, date, crc32, compressedSize,
    uncompressedSize, nameLength, extraLength, Nat.toUInt32, UInt32.ofNat_toNat]

end LocalHeader

/-! ## Archives as they are written -/

/-- A file in an archive, with all that stands between its header and that of the next file.  What
its header says of sizes and checksum need not be true. -/
structure LocalFile where
  version : UInt16
  flags : UInt16
  time : UInt16
  date : UInt16
  crc32 : UInt32
  compressedSize : UInt32
  uncompressedSize : UInt32
  name : List UInt8
  extra : List UInt8
  payload : List UInt8
  filler : List UInt8
  name_short : name.length < 256 ^ 2
  extra_short : extra.length < 256 ^ 2
  /-- No signature occurs behind the payload. -/
  unsigned : ¬ signatureBytes <:+: filler

namespace LocalFile

def header (file : LocalFile) : LocalHeader where
  signature := signature
  version := file.version.toNat
  flags := file.flags.toNat
  method := deflateMethod
  time := file.time.toNat
  date := file.date.toNat
  crc32 := file.crc32
  compressedSize := file.compressedSize.toNat
  uncompressedSize := file.uncompressedSize.toNat
  nameLength := file.name.length
  extraLength := file.extra.length

/-- What stands before the payload. -/
def opening (file : LocalFile) : List UInt8 :=
  file.header.bytes ++ file.name ++ file.extra

def bytes (file : LocalFile) : List UInt8 :=
  file.opening ++ file.payload ++ file.filler

end LocalFile

/-- An archive of some files. -/
def archive (files : List LocalFile) : List UInt8 :=
  files.flatMap LocalFile.bytes

/-- Where the payloads of files that are written from a place on lie. -/
def payloads : (place : Nat) → List LocalFile → List ByteExtent
  | _, [] => []
  | place, file :: files =>
      ⟨place + file.opening.length, file.payload.length⟩ ::
        payloads (place + file.bytes.length) files

/-- The compressed size in each header is no more than what follows the header, its name and its
extra field. -/
def SizesFit : List LocalFile → Prop
  | [] => True
  | file :: files =>
      file.compressedSize.toNat ≤ (file.payload ++ file.filler ++ archive files).length ∧
        SizesFit files

namespace LocalFile

variable (file : LocalFile)

theorem fits_header : file.header.Fits where
  signature := by
    change signature < 256 ^ 4
    decide
  version := file.version.toNat_lt
  flags := file.flags.toNat_lt
  method := by
    change deflateMethod < 256 ^ 2
    decide
  time := file.time.toNat_lt
  date := file.date.toNat_lt
  compressedSize := file.compressedSize.toNat_lt
  uncompressedSize := file.uncompressedSize.toNat_lt
  nameLength := file.name_short
  extraLength := file.extra_short

theorem signed_bytes : signatureBytes <+: file.bytes := by
  have first : toLittleEndian 4 file.header.signature = signatureBytes := by
    change toLittleEndian 4 signature = _
    decide
  simp only [bytes, opening, LocalHeader.bytes, first, List.append_assoc]
  exact List.prefix_append _ _

theorem length_opening :
    file.opening.length = fixedHeaderSize + file.name.length + file.extra.length := by
  simp only [opening, List.length_append, LocalHeader.length_bytes]

end LocalFile

/-- The search finds an entry where a file has been written. -/
theorem accepts_of_bytes {probe : Probe} {Stream : List UInt8 → Prop}
    (whole : probe.MeasuresWhole Stream) {file : LocalFile} (stream : Stream file.payload)
    {data : Bytes} {place : Nat} {behind : List UInt8}
    (stands : data.rest place = file.bytes ++ behind)
    (fit : file.compressedSize.toNat ≤ (file.payload ++ file.filler ++ behind).length) :
    Accepts probe data place ⟨place + file.opening.length, file.payload.length⟩ := by
  have size := congrArg List.length stands
  have opening := file.length_opening
  simp only [Bytes.length_rest, LocalFile.bytes, List.length_append] at size fit
  have room : place + fixedHeaderSize ≤ data.size := by
    rw [fixedHeaderSize] at opening ⊢
    omega
  have header : LocalHeader.decode data place = file.header := by
    rw [LocalFile.bytes, LocalFile.opening] at stands
    simp only [List.append_assoc] at stands
    exact LocalHeader.decode_of_bytes file.fits_header stands
  have follows : file.payload <+: data.rest (place + file.opening.length) := by
    rw [LocalFile.bytes, List.append_assoc, List.append_assoc] at stands
    rw [Bytes.rest_of_append stands]
    exact List.prefix_append _ _
  exact {
    room
    signed := stands ▸ file.signed_bytes.trans (List.prefix_append _ _)
    deflated := congrArg LocalHeader.method header
    start := by
      have name : data.field (place + 26) 2 = _ := congrArg LocalHeader.nameLength header
      have extra : data.field (place + 28) 2 = _ := congrArg LocalHeader.extraLength header
      rw [name, extra]
      dsimp only [LocalFile.header]
      omega
    declared := by
      have declared : data.field (place + 18) 4 = _ :=
        congrArg LocalHeader.compressedSize header
      rw [declared]
      dsimp only [LocalFile.header]
      omega
    measured := whole stream follows }

/-! ## Between files -/

theorem archive_signed (files : List LocalFile) :
    archive files = [] ∨ signatureBytes <+: archive files := by
  cases files with
  | nil => exact .inl rfl
  | cons file files => exact .inr (file.signed_bytes.trans (List.prefix_append _ _))

/-- No signature begins in bytes without one, not even one that ends in those behind them. -/
theorem not_signed_filler {filler behind : List UInt8} (unsigned : ¬ signatureBytes <:+: filler)
    (next : behind = [] ∨ signatureBytes <+: behind) {number : Nat}
    (inside : number < filler.length) : ¬ signatureBytes <+: (filler ++ behind).drop number := by
  rw [List.drop_append_of_le_length (Nat.le_of_lt inside)]
  intro signed
  have positive : 0 < (filler.drop number).length := by
    rw [List.length_drop]
    omega
  by_cases long : signatureBytes.length ≤ (filler.drop number).length
  · have within := List.prefix_of_prefix_length_le signed (List.prefix_append _ _) long
    exact unsigned (within.isInfix.trans (List.drop_suffix number filler).isInfix)
  · rcases next with rfl | again
    · rw [List.append_nil] at signed
      exact long signed.length_le
    · have apart := not_signed_drop signed positive (Nat.lt_of_not_le long)
      rw [List.drop_left] at apart
      exact apart again

section Search

variable {probe : Probe} {data : Bytes}

/-- Nothing is accepted behind a payload before the next file. -/
theorem LocalFile.not_accepts_filler (file : LocalFile) {files : List LocalFile} {place : Nat}
    (stands : data.rest place = file.filler ++ archive files) {later : Nat} (behind : place ≤ later)
    (before : later < place + file.filler.length) (payload : ByteExtent) :
    ¬ Accepts probe data later payload := by
  obtain ⟨number, rfl⟩ := Nat.exists_eq_add_of_le behind
  intro accepts
  have signed := accepts.signed
  rw [Bytes.rest_add, stands] at signed
  exact not_signed_filler file.unsigned (archive_signed files) (Nat.lt_of_add_lt_add_left before)
    signed

/-- From the start of a file on, its entry is the first one, and what follows it is the rest of the
archive. -/
theorem exists_leftmost_archive {Stream : List UInt8 → Prop} (whole : probe.MeasuresWhole Stream)
    {files : List LocalFile} (streams : ∀ file ∈ files, Stream file.payload) (fit : SizesFit files)
    {place : Nat} (stands : data.rest place = archive files) :
    ∃ entries, Leftmost probe data place entries ∧
      entries.map Entry.payload = payloads place files := by
  induction files generalizing place with
  | nil =>
      refine ⟨[], .none fun later behind payload accepts => ?_, rfl⟩
      have size : data.size - place = 0 := data.length_rest place ▸ congrArg List.length stands
      have room := accepts.room
      rw [fixedHeaderSize] at room
      omega
  | cons file files ih =>
      rw [List.forall_mem_cons] at streams
      rw [archive, List.flatMap_cons] at stands
      obtain ⟨entries, leftmost, found⟩ := ih streams.2 fit.2 (Bytes.rest_of_append stands)
      have filler : data.rest (place + file.opening.length + file.payload.length) =
          file.filler ++ archive files := by
        rw [LocalFile.bytes, List.append_assoc] at stands
        rw [Nat.add_assoc, ← List.length_append]
        exact Bytes.rest_of_append stands
      have next : place + file.bytes.length =
          place + file.opening.length + file.payload.length + file.filler.length := by
        simp only [LocalFile.bytes, List.length_append, Nat.add_assoc]
      rw [next] at leftmost
      refine ⟨⟨place, ⟨place + file.opening.length, file.payload.length⟩⟩ :: entries,
        .next (Nat.le_refl place) (accepts_of_bytes whole streams.1 stands fit.1)
          (fun earlier behind before => absurd before (Nat.not_lt.mpr behind))
          (leftmost.extend (Nat.le_add_right _ _) fun later behind before =>
            file.not_accepts_filler filler behind before), ?_⟩
      rw [List.map_cons, found, payloads]

/-- In an archive with streams that the probe measures, the search finds the payload of each file,
as long as it is, and nothing else. -/
theorem deflates_archive {Stream : List UInt8 → Prop} (whole : probe.MeasuresWhole Stream)
    {files : List LocalFile} (streams : ∀ file ∈ files, Stream file.payload) (fit : SizesFit files) :
    deflates probe (archive files).toArray = payloads 0 files := by
  obtain ⟨entries, leftmost, found⟩ := exists_leftmost_archive whole streams fit
    (rfl : Bytes.rest (archive files).toArray 0 = archive files)
  rw [deflates_of_leftmost leftmost, found]

end Search

/-- A file whose name, extra field and payload hold signatures; its sizes and its checksum are not
true, and the bytes behind it end with a part of a signature. -/
def misleadingFile : LocalFile where
  version := 20
  flags := 8
  time := 0x6000
  date := 0x5821
  crc32 := 1
  compressedSize := 3
  uncompressedSize := 70000
  name := 120 :: signatureBytes
  extra := signatureBytes
  payload := storedStream (signatureBytes ++ signatureBytes)
  filler := [80, 75, 7, 8, 80, 75, 3]
  name_short := by decide
  extra_short := by decide
  unsigned := by decide

theorem deflates_archive_misleading :
    (∀ file ∈ [misleadingFile, misleadingFile], CompleteStream file.payload) ∧
      SizesFit [misleadingFile, misleadingFile] ∧
      deflates Probe.inflating (archive [misleadingFile, misleadingFile]).toArray =
        [⟨39, 13⟩, ⟨98, 13⟩] := by
  have complete : CompleteStream misleadingFile.payload := completeStream_stored (by decide)
  have streams : ∀ file ∈ [misleadingFile, misleadingFile], CompleteStream file.payload := by
    simp [complete]
  have fit : SizesFit [misleadingFile, misleadingFile] := ⟨by decide, by decide, trivial⟩
  refine ⟨streams, fit, ?_⟩
  rw [deflates_archive Probe.measuresWhole_inflating streams fit]
  decide

end DeflateAtlas.Zip
