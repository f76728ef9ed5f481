import DeflateAtlas.Proofs.Inflate.Streams
import DeflateAtlas.Proofs.Puff.Encoding

/-!
# Tables that the encoder refuses

A code with a single word of more than one bit has no decoding table.  Where
blocks go on with a table that sends such a code, the encoder takes these blocks,
reads the table and fails.  It gets no further than the table, so it does not
matter what comes after it.
-/

namespace DeflateAtlas

open BitSource Deflate Huffman

namespace Deflate

theorem DynamicHeader.SendsSingleLong.ofHeader_eq {header : DynamicHeader}
    (long : header.SendsSingleLong) : BlockCodes.ofHeader header = .error .incompleteCode := by
  obtain ⟨literalsShort, distancesShort⟩ := long.valid.lengths_short
  rw [BlockCodes.ofHeader, if_neg (Nat.ne_of_gt long.endOfBlock), BlockCodes.ofLengths]
  by_cases literals : Inflate.SingleLong header.literalLengths
  · have refused := DecodingTable.ofLengths_of_rejected (literals.fits literalsShort)
      (literals.not_accepted true)
    rw [refused]
    rfl
  · have taken := DecodingTable.ofLengths_eq_ok_iff.mpr
      ⟨rfl, long.literals.resolve_right literals⟩
    have distances := long.long.resolve_left literals
    have refused := DecodingTable.ofLengths_of_rejected (distances.fits distancesShort)
      (distances.not_accepted true)
    rw [taken, refused]
    rfl

theorem readBlock_of_singleLong {source : BitSource} {last : Bool} {header : DynamicHeader}
    (wellFormed : source.WellFormed) (long : header.SendsSingleLong)
    (begins : last :: lowBits 2 BlockKind.dynamic.number ++ header.bits <+: source.bits)
    (elements : Array Element) :
    ∃ after, readBlock ⟨source, elements⟩ = .error .incompleteCode after := by
  have opens : [last] ++ (lowBits 2 BlockKind.dynamic.number ++ header.bits) <+: source.bits :=
    begins
  obtain ⟨first, flag, taken⟩ := reads_getBit.complete wellFormed rfl
    ((List.prefix_append _ _).trans opens)
  have opens := taken.prefix_of_append opens
  obtain ⟨second, kind, taken⟩ := (reads_getBits (by decide : 2 ≤ 32)).complete taken.wellFormed
    ⟨BlockKind.dynamic.number_lt, rfl⟩ ((List.prefix_append _ _).trans opens)
  have opens := taken.prefix_of_append opens
  obtain ⟨third, table, -⟩ := DynamicHeader.reads_read.complete taken.wellFormed
    ⟨long.valid, rfl⟩ opens
  have content : ∃ after, readContent .dynamic ⟨second, elements.push (.header .dynamic last)⟩ =
      .error .incompleteCode after := by
    refine ⟨⟨third, elements.push (.header .dynamic last)⟩, ?_⟩
    rw [readContent, bind_of_ok (reading_of_ok table _), long.ofHeader_eq]
    rfl
  obtain ⟨after, content⟩ := content
  refine ⟨after, ?_⟩
  have known : BlockKind.ofNumber? BlockKind.dynamic.number = some .dynamic := rfl
  rw [readBlock, bind_of_ok (reading_of_ok flag elements), readBlockAfter,
    bind_of_ok (reading_of_ok kind elements), known]
  have emitted : Transcript.emit (.header .dynamic last) ⟨second, elements⟩ =
      .ok () ⟨second, elements.push (.header .dynamic last)⟩ := rfl
  exact (bind_of_ok emitted).trans (bind_of_error content)

theorem parseBlocks_of_singleLong {source : BitSource} (wellFormed : source.WellFormed)
    (ahead : SingleLongAhead source.offset source.bits) (spans : Array BlockSpan)
    (elements : Array Element) :
    (parseBlocks spans ⟨source, elements⟩).result = .error .incompleteCode := by
  obtain ⟨parsed, last, header, valid, noneFinal, long, begins⟩ := ahead
  -- The blocks before the table are parsed one by one; none of them ends the stream.
  induction parsed generalizing source spans elements with
  | nil =>
      obtain ⟨after, run⟩ := readBlock_of_singleLong wellFormed long begins elements
      have many : ¬ (⟨source, elements⟩ : Transcript).remaining < 8 := by
        have size := begins.length_le
        rw [length_bits] at size
        simp only [blockBits, List.nil_append, List.cons_append, List.length_cons,
          List.length_append, length_lowBits, DynamicHeader.bits] at size
        simp only [Transcript.remaining]
        omega
      rw [parseBlocks_of_error run many]
  | cons block parsed ih =>
      obtain ⟨blockValid, -, othersValid⟩ := valid
      rw [List.forall_mem_cons] at noneFinal
      rw [blockBits, List.append_assoc] at begins
      have starts := (List.prefix_append _ _).trans begins
      obtain ⟨middle, run, taken⟩ := parses_readBlock.complete wellFormed
        ⟨block, noneFinal.1, blockValid, rfl, rfl⟩ starts elements
      have place : middle.offset = block.stop source.offset := taken.offset
      have continues := taken.prefix_of_append begins
      rw [← place] at othersValid continues
      rw [parseBlocks_of_ok run (Block.not_few starts)]
      exact ih taken.wellFormed _ _ othersValid noneFinal.2 continues

end Deflate

theorem PuffEncoder.encode_of_singleLong {source : BitSource} (wellFormed : source.WellFormed)
    (ahead : SingleLongAhead source.offset source.bits) (sink : Puff.Sink) :
    (encode source sink).result = .error .incompleteCode :=
  parseBlocks_of_singleLong wellFormed ahead #[] #[]

end DeflateAtlas
