import DeflateAtlas.Proofs.BitSource.Reachable
import DeflateAtlas.Proofs.Deflate.Streams
import DeflateAtlas.Proofs.Puff.Reading
import DeflateAtlas.Transform

/-!
# The encoder and the blocks of a stream

The encoder succeeds on the bits of blocks, whatever follows the final one, and
writes their puff; and it succeeds on nothing else.  Since a puff belongs to one
sequence of blocks only, puffs and the place in a byte where the data begins
determine every bit that was taken.
-/

namespace DeflateAtlas.PuffEncoder

open BitSource Deflate Puff

/-- What the encoder leaves behind when it has taken blocks that begin at a place in the data. -/
def encoded (position : Nat) (blocks : List Block) (after : BitSource) (sink : Sink) :
    Transformed where
  result := .ok ()
  source := after
  sink := sink.append (puff blocks).toArray
  blocks := (blockSpans position blocks).map (·.extent)
  log := (blockSpans position blocks).map (·.event)

theorem encode_of_parse {source after : BitSource} {sink : Sink} {blocks : List Block}
    (nothing : sink.waiting = #[])
    (parsed : parse source =
      ⟨.ok (), (blockSpans source.offset blocks).toArray,
        ⟨after, (blocks.flatMap Block.elements).toArray⟩⟩) :
    encode source sink = encoded source.offset blocks after sink := by
  rw [encode, parsed]
  dsimp only
  rw [Sink.insertAll_elements nothing,
    Sink.flush_of_nothing (Sink.waiting_append_of_nothing nothing _)]
  rfl

/-- Blocks are encoded if their bits are there and the last one is final or fewer than eight bits
follow. -/
theorem encode_complete {source : BitSource} {blocks : List Block} (wellFormed : source.WellFormed)
    (valid : BlocksValid source.offset blocks)
    (begins : blockBits source.offset blocks <+: source.bits)
    (ends : EndsFinal blocks ∨ source.remaining < (blockBits source.offset blocks).length + 8)
    {sink : Sink} (nothing : sink.waiting = #[]) :
    ∃ after, encode source sink = encoded source.offset blocks after sink ∧
      Takes source after (blockBits source.offset blocks).length := by
  obtain ⟨after, run, taken⟩ := parseBlocks_complete wellFormed valid begins ends #[] #[]
  rw [Array.empty_append, Array.empty_append] at run
  exact ⟨after, encode_of_parse nothing run, taken⟩

/-- What is encoded are blocks. -/
theorem encode_sound {source : BitSource} {sink : Sink} (wellFormed : source.WellFormed)
    (nothing : sink.waiting = #[]) (ended : (encode source sink).result = .ok ()) :
    ∃ blocks after, BlocksValid source.offset blocks ∧
      blockBits source.offset blocks <+: source.bits ∧
      encode source sink = encoded source.offset blocks after sink ∧
      Takes source after (blockBits source.offset blocks).length ∧
      (EndsFinal blocks ∨ after.remaining < 8) := by
  have ended : (parse source).result = .ok () := ended
  obtain ⟨blocks, valid, begins, spans, elements, taken, ends⟩ :=
    parseBlocks_sound wellFormed ended
  refine ⟨blocks, (parse source).transcript.source, valid, begins, ?_, taken, ends⟩
  apply encode_of_parse nothing
  rw [Array.empty_append] at spans elements
  rw [← spans, ← elements, ← ended]
  rfl

/-! ## Puffs lose nothing -/

theorem output_encoded (position : Nat) (blocks : List Block) (after : BitSource)
    (buffer : Bytes) :
    (encoded position blocks after (Sink.appending buffer)).sink.output =
      some (buffer ++ (puff blocks).toArray) :=
  Sink.output_append rfl _

theorem lengths_encoded (position : Nat) (blocks : List Block) (after : BitSource)
    (sink : Sink) :
    (encoded position blocks after sink).blocks.map (·.length) =
      (blockSpans position blocks).map (·.extent.length) :=
  List.map_map

/-- Two runs that write the same bytes, from places at the same distance from a byte boundary, have
taken the same bits and found blocks of the same lengths. -/
theorem encode_lossless {first second : BitSource} {firstBuffer secondBuffer bytes : Bytes}
    (firstReached : first.Reachable) (secondReached : second.Reachable)
    (aligned : first.offset % 8 = second.offset % 8)
    (firstEnded : (encode first (Sink.appending firstBuffer)).result = .ok ())
    (secondEnded : (encode second (Sink.appending secondBuffer)).result = .ok ())
    (firstWrites : (encode first (Sink.appending firstBuffer)).sink.output =
      some (firstBuffer ++ bytes))
    (secondWrites : (encode second (Sink.appending secondBuffer)).sink.output =
      some (secondBuffer ++ bytes)) :
    ∃ word,
      first.bits = word ++ (encode first (Sink.appending firstBuffer)).source.bits ∧
      second.bits = word ++ (encode second (Sink.appending secondBuffer)).source.bits ∧
      (encode first (Sink.appending firstBuffer)).source.offset = first.offset + word.length ∧
      (encode second (Sink.appending secondBuffer)).source.offset =
        second.offset + word.length ∧
      (encode first (Sink.appending firstBuffer)).blocks.map (·.length) =
        (encode second (Sink.appending secondBuffer)).blocks.map (·.length) := by
  obtain ⟨blocks, after, valid, begins, run, taken, -⟩ :=
    encode_sound firstReached.wellFormed rfl firstEnded
  obtain ⟨others, otherAfter, otherValid, otherBegins, otherRun, otherTaken, -⟩ :=
    encode_sound secondReached.wellFormed rfl secondEnded
  rw [run, output_encoded, Option.some.injEq, Array.append_right_inj] at firstWrites
  rw [otherRun, output_encoded, Option.some.injEq, Array.append_right_inj] at secondWrites
  have puffs : puff blocks = puff others := by
    have arrays := firstWrites.trans secondWrites.symm
    exact congrArg Array.toList arrays
  obtain rfl := puff_injective valid otherValid puffs
  -- The blocks are the same, and so are their bits, as both runs begin at the same place in a byte.
  rw [← blockBits_congr aligned blocks] at otherBegins otherTaken
  rw [run, otherRun]
  refine ⟨blockBits first.offset blocks, taken.bits_eq_append begins,
    otherTaken.bits_eq_append otherBegins, taken.offset, otherTaken.offset, ?_⟩
  rw [lengths_encoded, lengths_encoded]
  exact map_length_blockSpans_congr aligned blocks

/-- A table that gives words to the letter a, to the lengths 11 and 12 and to the distances 5
and 6. -/
def referenceTable : DynamicHeader where
  literalCount := 266
  distanceCount := 5
  sentLengths := [0, 2, 2, 0, 0, 0, 0, 0, 0, 0, 0, 0, 0, 0, 0, 2, 0, 2]
  entries := [.manyZeros 97, .single 1, .manyZeros 138, .manyZeros 20, .single 2, .fewZeros 8,
    .single 2, .fewZeros 4, .single 1]

/-- A letter, and a reference to before it. -/
def referenceBlock : Block :=
  ⟨.dynamic referenceTable [.literal 97, .reference 12 6 false], some 0⟩

/-- The block in bytes. -/
def referenceStream : Bytes :=
  #[77, 196, 33, 1, 0, 0, 0, 128, 160, 173, 252, 63, 97, 181, 224, 6]

theorem blocksValid_referenceBlock (position : Nat) : BlocksValid position [referenceBlock] := by
  have content : Content.Valid 0 referenceBlock.content := by decide +kernel
  exact ⟨⟨content, finalValid_zero _⟩, fun more => absurd rfl more, trivial⟩

theorem bits_referenceBlock {position : Nat} (aligned : position % 8 = 0) :
    referenceBlock.bits position = bitsOfBytes referenceStream.toList := by
  have start : 0 % 8 = position % 8 := aligned.symm
  rw [← referenceBlock.bits_congr start]
  decide +kernel

theorem blockBits_referenceBlock {position : Nat} (aligned : position % 8 = 0) :
    blockBits position [referenceBlock] = bitsOfBytes referenceStream.toList := by
  rw [blockBits, blockBits, List.append_nil, bits_referenceBlock aligned]

/-- The block at the start of a buffer and after a byte. -/
theorem encode_lossless_reference :
    let first := ofBytes referenceStream
    let second := Operation.getByte.run (ofBytes (#[0] ++ referenceStream))
    ∃ word,
      first.bits = word ++ (encode first (Sink.appending #[])).source.bits ∧
      second.bits = word ++ (encode second (Sink.appending #[7])).source.bits ∧
      (encode first (Sink.appending #[])).source.offset = word.length ∧
      (encode first (Sink.appending #[])).blocks.map (·.length) = [128] ∧
      (encode second (Sink.appending #[7])).blocks.map (·.length) = [128] := by
  intro first second
  have firstReached : first.Reachable := reachable_ofBytes _
  have secondReached : second.Reachable := (reachable_ofBytes _).run .getByte
  have final : EndsFinal [referenceBlock] := ⟨_, rfl, rfl⟩
  have firstBegins : blockBits first.offset [referenceBlock] <+: first.bits :=
    ⟨[], by rw [List.append_nil, blockBits_referenceBlock (by decide), bits_ofBytes]⟩
  have secondBegins : blockBits second.offset [referenceBlock] <+: second.bits := by
    rw [blockBits_referenceBlock (by decide)]
    decide
  obtain ⟨firstAfter, firstRun, -⟩ := encode_complete firstReached.wellFormed
    (blocksValid_referenceBlock _) firstBegins (.inl final)
    (rfl : (Sink.appending #[]).waiting = #[])
  obtain ⟨secondAfter, secondRun, -⟩ := encode_complete secondReached.wellFormed
    (blocksValid_referenceBlock _) secondBegins (.inl final)
    (rfl : (Sink.appending #[7]).waiting = #[])
  obtain ⟨word, firstBits, secondBits, offset, -, lengths⟩ := encode_lossless firstReached
    secondReached (by decide) (congrArg Transformed.result firstRun)
    (congrArg Transformed.result secondRun) (by rw [firstRun, output_encoded])
    (by rw [secondRun, output_encoded])
  have length : (encode first (Sink.appending #[])).blocks.map (·.length) = [128] := by
    rw [firstRun, lengths_encoded, blockSpans, blockSpans, List.map_singleton, Block.span,
      bits_referenceBlock (by decide)]
    rfl
  exact ⟨word, firstBits, secondBits, by rw [offset]; exact Nat.zero_add _, length,
    lengths.symm.trans length⟩

end DeflateAtlas.PuffEncoder
