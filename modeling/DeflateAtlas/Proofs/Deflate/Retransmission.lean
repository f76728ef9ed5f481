import DeflateAtlas.Proofs.Deflate.CodeLengths
import DeflateAtlas.Proofs.Deflate.Tables
import DeflateAtlas.Proofs.Huffman.Canonical

/-!
# Sending a table again

A table that has been read can be sent again: its numbers, the lengths of the code
length code in their order and its entries are the bits it was read from, to the last.
-/

namespace DeflateAtlas.Deflate

open BitSource Huffman

/-- The lengths of the code length code are taken from where the order of sending has put them. -/
theorem map_codeLengthLengths {sent : List Nat} (few : sent.length ≤ 19) :
    (codeLengthOrder.take sent.length).map ((codeLengthLengths sent).getD · 0) = sent := by
  have once : codeLengthOrder.Nodup := by decide
  have bounded : ∀ symbol ∈ codeLengthOrder, symbol < 19 := by decide
  apply List.ext_getElem
  · rw [List.length_map, List.length_take]
    exact Nat.min_eq_left few
  · intro index _ inside
    have listed : index < codeLengthOrder.length := Nat.lt_of_lt_of_le inside few
    have symbol := bounded _ (List.getElem_mem listed)
    simp only [List.getElem_map, List.getElem_take, codeLengthLengths, List.getD_eq_getElem?_getD,
      List.getElem?_map, List.getElem?_range symbol, Option.map_some, Option.getD_some,
      once.idxOf_getElem, List.getElem?_eq_getElem inside]

namespace DynamicHeader

/-- A table that has been read is sent by the bits that were taken for it, its entries in canonical
words, and it stands for as many code lengths as it announces. -/
theorem read_retransmitted {source after : BitSource} {header : DynamicHeader}
    (reachable : source.Reachable) (ended : read source = .ok header after) :
    (source.bits = header.bits ++ after.bits ∧ after.data = source.data ∧
      after.offset = source.offset + header.bits.length) ∧
    (codeLengthOrder.take header.sentLengths.length).map
      ((codeLengthLengths header.sentLengths).getD · 0) = header.sentLengths ∧
    IsCanonical (codeLengthLengths header.sentLengths)
      (codeWords (codeLengthLengths header.sentLengths)) ∧
    (∀ entry ∈ header.entries, entry.Valid ∧
      HasWord (codeLengthLengths header.sentLengths) entry.symbol) ∧
    (∀ count, header.entries.head? ≠ some (.repeatPrevious count)) ∧
    header.Expanded := by
  obtain ⟨_, ⟨valid, rfl⟩, begins, taken⟩ := reads_read.sound reachable.wellFormed ended
  obtain ⟨each, first⟩ := valid.entries
  refine ⟨⟨taken.bits_eq_append begins, taken.data, taken.offset⟩,
    map_codeLengthLengths valid.sent.2, isCanonical_codeWords valid.complete.fits, each,
    fun count copies => first rfl _ copies rfl, valid.expanded⟩

/-- A table whose fourth entry, a copy, goes on from the literal code into the distance code; the
fifth repeats what it has copied. -/
def straddling : DynamicHeader where
  literalCount := 257
  distanceCount := 4
  sentLengths := [2, 0, 1, 0, 0, 0, 0, 0, 0, 0, 0, 0, 0, 0, 0, 2]
  entries := [.manyZeros 138, .manyZeros 115, .single 2, .repeatPrevious 4, .repeatPrevious 3]

/-- A block with this table and no tokens. -/
def straddlingBlock : Bytes :=
  #[5, 131, 133, 0, 0, 0, 0, 128, 252, 161, 187, 25]

/-- The table is read from behind the three bits that begin its block. -/
theorem read_retransmitted_straddling :
    ∃ source after,
      getBits 3 (ofBytes straddlingBlock) = .ok 5 source ∧
      read source = .ok straddling after ∧ source.bits = straddling.bits ++ after.bits ∧
      after.offset = 91 ∧
      Expands [] straddling.entries (List.replicate 253 0 ++ List.replicate 8 2) ∧
      straddling.distanceLengths = [2, 2, 2, 2] := by
  have length : (ofBytes straddlingBlock).bits.length = 96 := by
    rw [length_bits]
    decide
  obtain ⟨source, opened, behind⟩ :=
    getBits_of_le (wellFormed_ofBytes straddlingBlock) (by decide) (by omega : 3 ≤ _)
  have reachable : source.Reachable := by
    have reached := (reachable_ofBytes straddlingBlock).run (.getBits 3)
    rwa [Operation.run, left, opened] at reached
  have number : bitsValue ((ofBytes straddlingBlock).bits.take 3) = 5 := by
    rw [bits_ofBytes]
    decide
  have begins : straddling.bits <+: source.bits := by
    rw [behind.bits, bits_ofBytes]
    decide +kernel
  have valid : straddling.Valid := by decide +kernel
  obtain ⟨after, run, -⟩ := reads_read.complete reachable.wellFormed ⟨valid, rfl⟩ begins
  obtain ⟨⟨bits, -, offset⟩, -, -, -, -, expanded⟩ := read_retransmitted reachable run
  have whole : straddling.bits.length = 88 := by decide +kernel
  rw [number] at opened
  rw [behind.offset, whole] at offset
  exact ⟨source, after, opened, run, bits, offset, expanded.expands_iff.mpr (by decide +kernel),
    by decide +kernel⟩

end DynamicHeader

end DeflateAtlas.Deflate
