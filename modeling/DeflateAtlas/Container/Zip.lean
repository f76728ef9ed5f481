import DeflateAtlas.Locate.Blocks
import DeflateAtlas.Probe
import DeflateAtlas.Stream.Buffer

/-!
# Zip archives

The entries of a zip archive are found by their local file headers alone: the
archive is searched from the left for the signature of such a header.  The
sizes and the checksum in a header are often missing or wrong, so the deflate
data of an entry is measured by a probe and the header is only compared with
the outcome.  A header that does not check out is passed over; the search never
fails, it just finds fewer entries.
-/

namespace DeflateAtlas.Zip

/-- The four bytes that begin a local file header. -/
def signature : Nat := 0x04034b50

/-- The size of a local file header without file name and extra field. -/
def fixedHeaderSize : Nat := 30

/-- The number of the deflate method. -/
def deflateMethod : Nat := 8

/-- The flag bit that moves sizes and checksum to after the payload. -/
def descriptorFlag : Nat := 3

/-- The fixed part of a local file header. -/
structure LocalHeader where
  signature : Nat
  version : Nat
  flags : Nat
  method : Nat
  time : Nat
  date : Nat
  crc32 : UInt32
  compressedSize : Nat
  uncompressedSize : Nat
  nameLength : Nat
  extraLength : Nat
  deriving DecidableEq, Repr

namespace LocalHeader

/-- The header at a place in some data, which has to hold its 30 bytes. -/
def decode (data : Bytes) (place : Nat) : LocalHeader :=
  { signature := data.field place 4
    version := data.field (place + 4) 2
    flags := data.field (place + 6) 2
    method := data.field (place + 8) 2
    time := data.field (place + 10) 2
    date := data.field (place + 12) 2
    crc32 := (data.field (place + 14) 4).toUInt32
    compressedSize := data.field (place + 18) 4
    uncompressedSize := data.field (place + 22) 4
    nameLength := data.field (place + 26) 2
    extraLength := data.field (place + 28) 2 }

/-- The header that some data begins with. -/
def parse (data : Bytes) : Except Failure LocalHeader :=
  if data.size < fixedHeaderSize then
    .error .zipHeaderEnded
  else
    .ok (decode data 0)

/-- The size of a header with file name and extra field. -/
def size (header : LocalHeader) : Nat :=
  fixedHeaderSize + header.nameLength + header.extraLength

end LocalHeader

/-- What became of a place with the signature of a local file header. -/
inductive Candidate
  /-- The header is not that of deflate data inside the archive. -/
  | unsuitable
  /-- The data after the header at `place` cannot be measured. -/
  | undecodable (place : Nat) (failure : Failure)
  /-- The payload of an entry. -/
  | entry (header : LocalHeader) (start : Nat) (sizes : Measurement)
  deriving DecidableEq, Repr

namespace Candidate

/-- Judge the header at a place that has room for one. -/
def judge (probe : Probe) (data : Bytes) (place : Nat) : Candidate :=
  let header := LocalHeader.decode data place
  let start := place + header.size
  if header.method ≠ deflateMethod then
    .unsuitable
  else if data.size < start + header.compressedSize then
    .unsuitable
  else
    match probe data start with
    | .error failure => .undecodable place failure
    | .ok sizes => .entry header start sizes

/-- The extent of the deflate data that was found. -/
def deflate? : Candidate → Option ByteExtent
  | .entry _ start sizes => some ⟨start, sizes.compressed⟩
  | _ => none

/-- The header names another compressed size than was measured; zero names none. -/
def compressedSizeEvents (header : LocalHeader) (sizes : Measurement) : Log :=
  if header.compressedSize ≠ 0 ∧ header.compressedSize ≠ sizes.compressed then
    [⟨.warn, s!"Compressed size in the file header: {header.compressedSize} " ++
      s!"doesn't equal the real size: {sizes.compressed}"⟩]
  else
    []

/-- The header names another uncompressed size than was measured; zero names none. -/
def uncompressedSizeEvents (header : LocalHeader) (sizes : Measurement) : Log :=
  if header.uncompressedSize ≠ 0 ∧ header.uncompressedSize ≠ sizes.uncompressed then
    [⟨.warn, s!"Uncompressed size in the file header: {header.uncompressedSize} " ++
      s!"doesn't equal the real size: {sizes.uncompressed}"⟩]
  else
    []

/-- The header names another checksum than was measured, and no other follows the payload; zero
names none. -/
def checksumEvents (header : LocalHeader) (sizes : Measurement) : Log :=
  if ¬ header.flags.testBit descriptorFlag ∧ header.crc32 ≠ 0 ∧ header.crc32 ≠ sizes.crc32 then
    [⟨.warn, s!"CRC-32 in the file header: {Crc32.render header.crc32} " ++
      s!"doesn't match the data: {Crc32.render sizes.crc32}"⟩]
  else
    []

/-- What is logged about a candidate. -/
def events : Candidate → Log
  | .unsuitable => []
  | .undecodable place failure =>
      failure.events ++
        [⟨.error, s!"Failed to decompress the zip entry starting from: {place}, " ++
          s!"skip adding deflates for this entry. {failure.text}"⟩]
  | .entry header _ sizes =>
      compressedSizeEvents header sizes ++ uncompressedSizeEvents header sizes ++
        checksumEvents header sizes

/-- Where the search goes on from a place: after the payload, or after the signature. -/
def resume (place : Nat) : Candidate → Nat
  | .entry _ start sizes => start + sizes.compressed
  | _ => place + 4

/-- The search always goes forward. -/
theorem lt_resume_judge (probe : Probe) (data : Bytes) (place : Nat) :
    place < (judge probe data place).resume place := by
  unfold judge
  dsimp only
  split
  · simp [resume]
  · split
    · simp [resume]
    · split
      · simp [resume]
      · simp only [resume, LocalHeader.size, fixedHeaderSize]
        omega

end Candidate

/-- The places from `place` on that begin with the signature and are not inside an entry found
before, as they are judged. -/
def candidates (probe : Probe) (data : Bytes) (place : Nat) : List Candidate :=
  if place + fixedHeaderSize ≤ data.size then
    if data.field place 4 = signature then
      let candidate := Candidate.judge probe data place
      candidate :: candidates probe data (candidate.resume place)
    else
      candidates probe data (place + 1)
  else
    []
termination_by data.size - place
decreasing_by
  · have forward := Candidate.lt_resume_judge probe data place
    simp only [fixedHeaderSize] at *
    omega
  · simp only [fixedHeaderSize] at *
    omega

/-- What a search of an archive has found. -/
structure Search where
  /-- The extents of the deflate data of the entries. -/
  deflates : List ByteExtent
  log : Log

/-- Search an archive for entries. -/
def search (probe : Probe) (data : Bytes) : Search :=
  let found := candidates probe data 0
  { deflates := found.filterMap Candidate.deflate?
    log := found.flatMap Candidate.events }

/-- The extents of the deflate data of the entries of an archive. -/
def deflates (probe : Probe) (data : Bytes) : List ByteExtent :=
  (search probe data).deflates

/-- The deflate blocks of all entries of an archive, and the log. -/
def blocks {τ : Type} [Transform τ] (transform : τ) (probe : Probe) (data : Bytes) :
    Except Failure (List BitExtent) × Log :=
  let ⟨deflates, log⟩ := search probe data
  (Survey.deflateBlocks deflates).outcome ⟨transform, BufferStream.reading data, log⟩

end DeflateAtlas.Zip
