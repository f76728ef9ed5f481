import DeflateAtlas.Proofs.Inflate.Streams
import DeflateAtlas.Proofs.Locate.Splitting
import DeflateAtlas.Proofs.Puff.Writing

/-!
# The probe measures what the encoder takes

A stream that the encoder takes up to a final block is inflated by the probe, and
its measures can be read off its puff: the puff gives back the blocks, these say
how many bytes they stand for and which, and the encoder stops at the end of the
byte up to which the probe has read.
-/

namespace DeflateAtlas.PuffEncoder

open BitSource Deflate Puff

theorem bits_suffix (data : Bytes) (start : Nat) :
    bitsOfBytes (data.extract start).toList =
      (bitsOfBytes data.toList).drop (start * 8) := by
  have rest : (data.toList.drop start).length ≤ data.size - start := by
    simp only [List.length_drop, Array.length_toList, Nat.le_refl]
  rw [Array.toList_extract, List.extract_eq_take_drop, List.take_of_length_le rest, bitsOfBytes_drop]

/-- What the encoder appends for the data from some byte on are records of blocks; if the last of
these is final, the probe takes as many bytes, and content size and checksum are those of the
records. -/
theorem encode_measured {data buffer : Bytes} {start : Nat}
    (ended : (encode (ofBytes (data.extract start)) (Sink.appending buffer)).result =
      .ok ()) :
    ∃ (records : List UInt8) (blocks : List Block),
      (encode (ofBytes (data.extract start)) (Sink.appending buffer)).sink.output =
        some (buffer ++ records.toArray) ∧
      readBack records = some blocks ∧
      (encode (ofBytes (data.extract start)) (Sink.appending buffer)).blocks =
        (blockSpans 0 blocks).map (·.extent) ∧
      (EndsFinal blocks → ∃ taken,
        (encode (ofBytes (data.extract start)) (Sink.appending buffer)).source.offset =
          taken * 8 ∧
        Probe.inflating data start = .ok
          { compressed := taken
            uncompressed := (blocks.map (·.content.size)).sum
            crc32 := Crc32.checksum (expand blocks).toArray }) := by
  obtain ⟨blocks, after, valid, begins, run, takes, -⟩ :=
    encode_sound (wellFormed_ofBytes _) rfl ended
  have origin : (ofBytes (data.extract start)).offset = 0 := rfl
  have aligned : (0 : Nat) % 8 = (start * 8) % 8 := by omega
  rw [origin] at valid begins takes run
  rw [bits_ofBytes, bits_suffix, blockBits_congr aligned] at begins
  rw [run]
  refine ⟨puff blocks, blocks, output_encoded 0 blocks after buffer, readBack_puff valid, rfl, ?_⟩
  intro final
  refine ⟨(blockBits (start * 8) blocks).length / 8, ?_,
    Probe.inflating_of_bits (blocksValid_congr aligned valid) final begins⟩
  have whole := blockBits_whole final (start * 8)
  have offset : after.offset = (blockBits 0 blocks).length := by
    rw [takes.offset, origin, Nat.zero_add]
  rw [blockBits_congr aligned] at offset
  change after.offset = _
  omega

/-- A block with a reference to before its content, after a byte that is left out. -/
theorem encode_measured_reference :
    let data : Bytes := #[7] ++ referenceStream
    (encode (ofBytes (data.extract 1)) (Sink.appending #[])).source.offset = 16 * 8 ∧
      Probe.inflating data 1 =
        .ok { compressed := 16, uncompressed := 13, crc32 := 0xcb6553c6 } := by
  intro data
  have content : data.extract 1 = referenceStream := by decide
  have final : EndsFinal [referenceBlock] := ⟨_, rfl, rfl⟩
  have valid := blocksValid_referenceBlock 0
  have bits := blockBits_referenceBlock (Nat.zero_mod 8)
  have begins : blockBits 0 [referenceBlock] <+: (ofBytes (data.extract 1)).bits :=
    ⟨[], by rw [List.append_nil, bits, content, bits_ofBytes]⟩
  obtain ⟨after, run, taken⟩ := encode_complete (wellFormed_ofBytes (data.extract 1)) valid begins
    (.inl final) (rfl : (Sink.appending #[]).waiting = #[])
  obtain ⟨records, blocks, written, read, -, measured⟩ :=
    @encode_measured data #[] 1 (congrArg Transformed.result run)
  rw [run, output_encoded, Option.some.injEq, Array.append_right_inj] at written
  have same : puff [referenceBlock] = records := congrArg Array.toList written
  rw [← same, readBack_puff valid] at read
  rw [← Option.some.inj read] at measured
  obtain ⟨bytes, offset, probed⟩ := measured final
  have length : after.offset = 0 + (blockBits 0 [referenceBlock]).length := taken.offset
  rw [bits, length_bitsOfBytes] at length
  have sixteen : bytes = 16 := by
    rw [run] at offset
    have whole : after.offset = bytes * 8 := offset
    have size : referenceStream.toList.length = 16 := rfl
    omega
  have checked : Crc32.checksum (expand [referenceBlock]).toArray = 0xcb6553c6 := by
    decide +kernel
  rw [sixteen] at offset probed
  rw [checked] at probed
  exact ⟨offset, probed⟩

end DeflateAtlas.PuffEncoder
