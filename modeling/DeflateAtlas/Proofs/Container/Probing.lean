import DeflateAtlas.Proofs.Bytes
import DeflateAtlas.Proofs.Inflate.Locality

/-!
# What containers ask of a probe

Containers are searched with any probe.  What is asked of it is stated here: that the
streams it measures are inside of the data, that it does not look past them, that it
measures complete streams as long as they are, and how it fails where the data ends
before a stream does.  The inflater meets all of this for the streams of RFC 1951.
-/

namespace DeflateAtlas

open Deflate

/-- Bytes that hold blocks, the last of which is final and fills the last byte. -/
def CompleteStream (stream : List UInt8) : Prop :=
  ∃ blocks, BlocksValid 0 blocks ∧ EndsFinal blocks ∧ bitsOfBytes stream = blockBits 0 blocks

/-- A stream of one block that stores some bytes. -/
def storedStream (bytes : List UInt8) : List UInt8 :=
  1 :: (toLittleEndian 2 bytes.length ++ toLittleEndian 2 (65535 - bytes.length) ++ bytes)

/-- Any bytes can stand in a complete stream. -/
theorem completeStream_stored {bytes : List UInt8} (short : bytes.length ≤ 65535) :
    CompleteStream (storedStream bytes) := by
  have opens : Block.openBits 0 ⟨.stored 0 bytes.toArray, some 0⟩ =
      bitsOfBytes (storedStream bytes) := by
    rw [storedStream, bitsOfBytes_cons, bitsOfBytes_append, bitsOfBytes_append,
      bitsOfBytes_toLittleEndian, bitsOfBytes_toLittleEndian]
    rfl
  have padding : BitSource.paddingWidth (0 + (bitsOfBytes (storedStream bytes)).length) = 0 := by
    rw [length_bitsOfBytes, BitSource.paddingWidth]
    omega
  refine ⟨[⟨.stored 0 bytes.toArray, some 0⟩], blocksValid_stored 0 short, ⟨_, rfl, rfl⟩, ?_⟩
  rw [blockBits, blockBits, Block.bits, opens, finalBits, padding, lowBits, List.append_nil,
    List.append_nil]

namespace Probe

/-- The streams that a probe measures in some data end inside of the data. -/
def StaysInside (probe : Probe) (data : Bytes) : Prop :=
  ∀ start sizes, probe data start = .ok sizes → start + sizes.compressed ≤ data.size

/-- A probe looks at nothing but the stream that it measures. -/
def Local (probe : Probe) : Prop :=
  ∀ ⦃data other : Bytes⦄ ⦃start : Nat⦄ ⦃sizes : Measurement⦄, probe data start = .ok sizes →
    other.slice start sizes.compressed = data.slice start sizes.compressed →
      probe other start = .ok sizes

/-- A probe measures certain streams as long as they are, wherever they stand and whatever bytes
follow. -/
def MeasuresWhole (probe : Probe) (Stream : List UInt8 → Prop) : Prop :=
  ∀ ⦃stream : List UInt8⦄, Stream stream → ∀ ⦃data : Bytes⦄ ⦃start : Nat⦄,
    stream <+: data.rest start →
      ∃ sizes, probe data start = .ok sizes ∧ sizes.compressed = stream.length

/-- A probe measures certain streams, and tells data that ends inside of such a stream from data
that ends before it. -/
structure Discerns (probe : Probe) (Stream : List UInt8 → Prop) : Prop where
  whole : probe.MeasuresWhole Stream
  /-- The data ends inside of a stream. -/
  cut : ∀ ⦃stream : List UInt8⦄, Stream stream → ∀ ⦃data : Bytes⦄ ⦃start : Nat⦄,
    data.rest start ≠ [] → data.rest start <+: stream → data.rest start ≠ stream →
      ∃ failure, probe data start = .error failure ∧ failure.kind = .inflateFailed
  /-- The data ends where a stream should begin. -/
  ended : ∀ data : Bytes,
    ∃ failure, probe data data.size = .error failure ∧ failure.kind = .outOfBounds

/-- A stream of which only the first bytes are left is refused. -/
theorem Discerns.refuses {probe : Probe} {Stream : List UInt8 → Prop}
    (discerns : probe.Discerns Stream) {stream : List UInt8} (complete : Stream stream)
    {data : Bytes} {start left : Nat} (positive : 0 < left) (short : left < stream.length)
    (stands : data.rest start = stream.take left) :
    ∃ failure, probe data start = .error failure ∧ failure.kind = .inflateFailed := by
  have length : (data.rest start).length = left := by
    rw [stands, List.length_take_of_le (Nat.le_of_lt short)]
  refine discerns.cut complete (fun nothing => ?_) (stands ▸ List.take_prefix left _) fun same => ?_
  · rw [nothing, List.length_nil] at length
    omega
  · rw [same] at length
    omega

/-! ## The inflater -/

theorem staysInside_inflating (data : Bytes) : inflating.StaysInside data :=
  fun _ _ run => (inflating_sound run).1

theorem inflating_eq_ok_iff {data : Bytes} {start : Nat} {sizes : Measurement} :
    inflating data start = .ok sizes ↔ start < data.size ∧
      ∃ output after, Inflate.blocks #[] ⟨data, start * 8⟩ = .ok output after ∧
        sizes = ⟨after.bytesTouched - start, output.size, Crc32.checksum output⟩ := by
  rw [inflating]
  split
  · rename_i outside
    exact iff_of_false (by rintro ⟨⟩) fun within => Nat.not_lt.mpr outside within.1
  · rename_i within
    rw [Inflate.inflate]
    cases run : Inflate.blocks #[] ⟨data, start * 8⟩ with
    | error defect after =>
        refine iff_of_false (by cases defect <;> rintro ⟨⟩) ?_
        rintro ⟨-, _, _, ⟨⟩, -⟩
    | ok output after =>
        constructor
        · rintro ⟨⟩
          exact ⟨Nat.lt_of_not_le within, output, after, rfl, rfl⟩
        · rintro ⟨-, _, _, ⟨⟩, rfl⟩
          rfl

theorem local_inflating : inflating.Local := by
  intro data other start sizes ended same
  have inside := staysInside_inflating data start sizes ended
  obtain ⟨within, output, after, run, rfl⟩ := inflating_eq_ok_iff.mp ended
  have cursorInside : (⟨data, start * 8⟩ : Inflate.BitCursor).Inside := by
    change start * 8 ≤ data.size * 8
    omega
  -- The stream takes at least one bit, so its first byte is there in the other data.
  have further := Inflate.consumes_blocks #[] run
  obtain ⟨word, begins, rfl, again⟩ := Inflate.local_blocks #[] cursorInside run
  have positive : 0 < word.length := by
    simp only [Inflate.BitCursor.remaining, Inflate.BitCursor.advance] at further
    omega
  have touched : (Inflate.BitCursor.advance ⟨data, start * 8⟩ word.length).bytesTouched =
      bytesForBits (start * 8 + word.length) := rfl
  dsimp only at inside same
  rw [touched, bytesForBits] at inside same
  have otherSize := Bytes.stop_le_of_slice_eq same (by omega) inside
  have otherBegins := Bytes.prefix_of_slice_eq same (by omega) begins
  have otherInside : (⟨other, start * 8⟩ : Inflate.BitCursor).Inside := by
    change start * 8 ≤ other.size * 8
    omega
  exact inflating_eq_ok_iff.mpr
    ⟨by omega, output, _, again rfl otherInside otherBegins, rfl⟩

theorem measuresWhole_inflating : inflating.MeasuresWhole CompleteStream := by
  rintro stream ⟨blocks, valid, final, bits⟩ data start stands
  have aligned : (0 : Nat) % 8 = start * 8 % 8 := by omega
  have begins : blockBits (start * 8) blocks <+: (bitsOfBytes data.toList).drop (start * 8) := by
    obtain ⟨behind, stands⟩ := stands
    rw [← bitsOfBytes_drop, ← blockBits_congr aligned, ← bits]
    change _ <+: bitsOfBytes (data.rest start)
    rw [← stands, bitsOfBytes_append]
    exact List.prefix_append _ _
  refine ⟨_, inflating_of_bits (blocksValid_congr aligned valid) final begins, ?_⟩
  rw [measurement, ← blockBits_congr aligned, ← bits, length_bitsOfBytes,
    Nat.mul_div_cancel _ (by decide)]

theorem inflating_kind {data : Bytes} {start : Nat} {failure : Failure}
    (ended : inflating data start = .error failure) :
    failure.kind = if start < data.size then .inflateFailed else .outOfBounds := by
  rw [inflating] at ended
  split at ended
  · rename_i outside
    cases ended
    rw [if_neg (Nat.not_lt.mpr outside)]
    rfl
  · rename_i within
    rw [if_pos (Nat.lt_of_not_le within)]
    split at ended
    · cases ended
      rfl
    · cases ended
      rfl
    · cases ended

/-- A stream of which only a part is there is not measured: it would be measured as the part, but
then also where the rest of it follows. -/
theorem not_ok_of_cut {probe : Probe} {Stream : List UInt8 → Prop} (isLocal : probe.Local)
    (whole : probe.MeasuresWhole Stream) {stream : List UInt8} (complete : Stream stream)
    {data : Bytes} (inside : probe.StaysInside data) {start : Nat}
    (part : data.rest start <+: stream) (proper : data.rest start ≠ stream)
    (within : start ≤ data.size) (sizes : Measurement) : probe data start ≠ .ok sizes := by
  intro ended
  obtain ⟨missing, rfl⟩ := part
  have stands : data.rest start ++ missing <+: (data ++ missing.toArray).rest start :=
    Bytes.rest_append within missing.toArray ▸ List.prefix_rfl
  have same := Bytes.slice_append (inside start sizes ended) missing.toArray
  obtain ⟨others, again, length⟩ := whole complete stands
  rw [isLocal ended same, Except.ok.injEq] at again
  have short := inside start sizes ended
  rw [← again, List.length_append, Bytes.length_rest] at length
  have nothing : missing.length = 0 := by omega
  rw [List.length_eq_zero_iff.mp nothing, List.append_nil] at proper
  exact proper rfl

theorem discerns_inflating : inflating.Discerns CompleteStream where
  whole := measuresWhole_inflating
  cut := by
    intro stream complete data start some part proper
    have within : start < data.size := by
      have positive := List.length_pos_iff.mpr some
      rw [Bytes.length_rest] at positive
      omega
    cases ended : inflating data start with
    | error failure =>
        refine ⟨failure, rfl, ?_⟩
        rw [inflating_kind ended, if_pos within]
    | ok sizes =>
        exact absurd ended (not_ok_of_cut local_inflating measuresWhole_inflating complete
          (staysInside_inflating data) part proper (Nat.le_of_lt within) sizes)
  ended data := by
    refine ⟨.probeStartPastEnd, ?_, rfl⟩
    rw [inflating, if_pos (Nat.le_refl _)]

end Probe

end DeflateAtlas
