import DeflateAtlas.Proofs.Puff.Encoding

/-!
# Encoding what has been written

`written` is a buffer in which blocks have been written from some bit on, with
anything before them and after them.  Since the final block fills its last
byte, the bits up to its end are whole bytes.  The encoder, put to that bit,
accepts every such buffer, takes the blocks and nothing else, and reports just
what they are.
-/

namespace DeflateAtlas

/-! ## Packing bits -/

/-- The first bits of a list in bytes, the first bit of each byte lowest. -/
def packBytes : (number : Nat) → List Bool → List UInt8
  | 0, _ => []
  | number + 1, bits => (bitsValue (bits.take 8)).toUInt8 :: packBytes number (bits.drop 8)

theorem bitsOfBytes_packBytes {number : Nat} {bits : List Bool}
    (whole : bits.length = number * 8) : bitsOfBytes (packBytes number bits) = bits := by
  induction number generalizing bits with
  | zero => exact (List.length_eq_zero_iff.mp (by omega)).symm
  | succ number ih =>
      have first : (bits.take 8).length = 8 := by
        rw [List.length_take]
        omega
      have small : bitsValue (bits.take 8) < 256 := by
        have bound := bitsValue_lt (bits.take 8)
        rwa [first] at bound
      have byte : (bitsValue (bits.take 8)).toUInt8.toNat = bitsValue (bits.take 8) := by
        rw [Nat.toUInt8, UInt8.toNat_ofNat']
        exact Nat.mod_eq_of_lt small
      have others : (bits.drop 8).length = number * 8 := by
        rw [List.length_drop]
        omega
      have digits := lowBits_bitsValue (bits.take 8)
      rw [first] at digits
      rw [packBytes, bitsOfBytes_cons, byte, digits, ih others, List.take_append_drop]

namespace Deflate

/-- The final block fills its last byte. -/
theorem Block.stop_of_final {block : Block} (final : block.isFinal = true) (position : Nat) :
    block.stop position % 8 = 0 := by
  obtain ⟨content, finalPadding⟩ := block
  cases finalPadding with
  | none => cases final
  | some padding =>
      rw [stop, bits, finalBits, List.length_append, length_lowBits, BitSource.paddingWidth]
      omega

theorem blockBits_whole {blocks : List Block} (final : EndsFinal blocks) (position : Nat) :
    (position + (blockBits position blocks).length) % 8 = 0 := by
  induction blocks generalizing position with
  | nil =>
      obtain ⟨block, ⟨⟩, -⟩ := final
  | cons block blocks ih =>
      rw [blockBits, List.length_append, ← Nat.add_assoc]
      rcases endsFinal_cons.mp final with ⟨rfl, isFinal⟩ | later
      · exact Block.stop_of_final isFinal position
      · exact ih later (block.stop position)

/-- A buffer in which blocks begin after some bits and end before some bytes. -/
def written (before : List Bool) (blocks : List Block) (following : Bytes) : Bytes :=
  let bits := before ++ blockBits before.length blocks
  (packBytes (bits.length / 8) bits).toArray ++ following

theorem bitsOfBytes_written {blocks : List Block} (final : EndsFinal blocks)
    (before : List Bool) (following : Bytes) :
    bitsOfBytes (written before blocks following).toList =
      before ++ (blockBits before.length blocks ++ bitsOfBytes following.toList) := by
  have whole := blockBits_whole final before.length
  rw [← List.length_append] at whole
  have packed := bitsOfBytes_packBytes (Nat.div_mul_cancel (Nat.dvd_of_mod_eq_zero whole)).symm
  rw [written, Array.toList_append, bitsOfBytes_append, packed, List.append_assoc]

end Deflate

namespace PuffEncoder

open BitSource Deflate Puff

/-- Blocks that have been written somewhere in a buffer are encoded and reported just as they
are. -/
theorem encode_written {before : List Bool} {blocks : List Block}
    (valid : BlocksValid before.length blocks) (final : EndsFinal blocks)
    (following buffer : Bytes) :
    ∃ start after,
      BitSource.skip before.length (ofBytes (written before blocks following)) = .ok () start ∧
      (encode start (Sink.appending buffer)).result = .ok () ∧
      (encode start (Sink.appending buffer)).sink =
        ⟨some (buffer ++ (puff blocks).toArray), (puff blocks).length, #[]⟩ ∧
      (encode start (Sink.appending buffer)).blocks =
        (blockSpans before.length blocks).map (·.extent) ∧
      (encode start (Sink.appending buffer)).source = after ∧
      after.offset = before.length + (blockBits before.length blocks).length ∧
      after.bits = bitsOfBytes following.toList := by
  have bits := bitsOfBytes_written final before following
  have available : before.length ≤ (ofBytes (written before blocks following)).bits.length := by
    rw [bits_ofBytes, bits, List.length_append]
    omega
  obtain ⟨start, skipped, toStart⟩ := skip_of_le (wellFormed_ofBytes _) available
  have place : start.offset = before.length := by
    rw [toStart.offset]
    exact Nat.zero_add _
  have rest : start.bits = blockBits start.offset blocks ++ bitsOfBytes following.toList := by
    rw [toStart.bits, bits_ofBytes, bits, List.drop_left, place]
  rw [← place] at valid
  obtain ⟨after, run, taken⟩ := encode_complete toStart.wellFormed valid
    (rest ▸ List.prefix_append _ _) (.inl final) (rfl : (Sink.appending buffer).waiting = #[])
  refine ⟨start, after, skipped, ?_⟩
  rw [run, ← place]
  have left : after.bits = bitsOfBytes following.toList := by
    rw [taken.bits, rest, List.drop_left]
  refine ⟨rfl, ?_, rfl, rfl, taken.offset, left⟩
  simp [encoded, Sink.appending, Sink.append]

/-- A table in which nothing but the end of the block has a word. -/
def endOnly : DynamicHeader where
  literalCount := 257
  distanceCount := 1
  sentLengths := [0, 0, 1, 2, 0, 0, 0, 0, 0, 0, 0, 0, 0, 0, 0, 0, 0, 2]
  entries := [.manyZeros 138, .manyZeros 118, .single 1, .single 0]

/-- A block of each kind, three bits from the start of a buffer. -/
theorem encode_written_kinds :
    let blocks : List Block :=
      [⟨.stored 2 #[97], none⟩, ⟨.fixed [.literal 97, .reference 258 1 true], none⟩,
        ⟨.dynamic endOnly [], some 0⟩]
    ∃ start,
      BitSource.skip 3 (ofBytes (written [true, false, true] blocks #[255])) = .ok () start ∧
      (encode start (Sink.appending #[7])).result = .ok () ∧
      (encode start (Sink.appending #[7])).sink.output = some (#[7] ++ (puff blocks).toArray) := by
  intro blocks
  have valid : BlocksValid [true, false, true].length blocks :=
    ⟨⟨by decide, finalValid_none _⟩, fun _ => rfl, ⟨by decide, finalValid_none _⟩, fun _ => rfl,
      ⟨by decide +kernel, finalValid_zero _⟩, fun more => absurd rfl more, trivial⟩
  obtain ⟨start, -, skipped, ended, output, -⟩ :=
    encode_written valid (by decide) #[255] #[7]
  exact ⟨start, skipped, ended, congrArg Sink.output output⟩

end PuffEncoder

end DeflateAtlas
