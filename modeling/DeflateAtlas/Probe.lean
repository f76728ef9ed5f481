import DeflateAtlas.Crc32
import DeflateAtlas.Failure
import DeflateAtlas.Inflate.Stream

/-!
# Probes

A container says where a deflate stream begins but rarely, or not reliably,
where it ends.  A probe finds out: it measures the stream that begins at a
given byte.  `Probe.inflating` does so by inflating it.
-/

namespace DeflateAtlas

/-- The measures of a deflate stream. -/
structure Measurement where
  /-- The number of bytes the stream takes; one that it takes in part counts whole. -/
  compressed : Nat
  /-- The number of bytes of its content. -/
  uncompressed : Nat
  /-- The checksum of its content. -/
  crc32 : UInt32
  deriving DecidableEq, Repr

/-- A way to measure the deflate stream that begins at a given byte of some data. -/
abbrev Probe := Bytes → Nat → Except Failure Measurement

/-- Measure a deflate stream by inflating it. -/
def Probe.inflating : Probe := fun data start =>
  if data.size ≤ start then
    .error .probeStartPastEnd
  else
    match Inflate.inflate data start with
    | .error .truncated => .error .deflateTruncated
    | .error .corrupt => .error (.deflateCorrupt start)
    | .ok (output, taken) => .ok ⟨taken, output.size, Crc32.checksum output⟩

end DeflateAtlas
