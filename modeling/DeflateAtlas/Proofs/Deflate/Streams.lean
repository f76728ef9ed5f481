import DeflateAtlas.Proofs.Deflate.Blocks

/-!
# Parsing sequences of blocks

A parse that ends well has taken the bits of blocks that can follow one
another, and stopped because the last one is final or because fewer than eight
bits are left.  Conversely such blocks are parsed from their bits.  Every
block has at least ten bits, so eight are left wherever a block begins.
-/

namespace DeflateAtlas.Deflate

open BitSource Huffman

/-! ## The least size of a block -/

theorem length_fixedEndOfBlock : (wordBits fixedLiteralLengths endOfBlock).length = 7 := by
  rw [length_wordBits]
  decide

theorem Content.seven_le_length_bits (position : Nat) (content : Content) :
    7 ≤ (content.bits position).length := by
  cases content with
  | stored padding bytes =>
      simp only [bits, List.length_append, length_lowBits]
      omega
  | fixed tokens =>
      simp only [bits, tokenBits, List.length_append, length_fixedEndOfBlock]
      omega
  | dynamic header tokens =>
      simp only [bits, DynamicHeader.bits, List.length_append, length_lowBits]
      omega

theorem Block.ten_le_length_bits (position : Nat) (block : Block) :
    10 ≤ (block.bits position).length := by
  have content := block.content.seven_le_length_bits (position + 3)
  simp only [bits, openBits, List.cons_append, List.length_cons, List.length_append,
    length_lowBits]
  omega

/-- Where a block begins, there are not too few bits for one. -/
theorem Block.not_few {block : Block} {source : BitSource} {position : Nat}
    (begins : block.bits position <+: source.bits) : ¬ source.remaining < 8 := by
  have least := block.ten_le_length_bits position
  have short := begins.length_le
  rw [source.length_bits] at short
  omega

theorem Block.span_of_stop {block : Block} {first last : Nat} (place : last = block.stop first) :
    (⟨⟨first, last - first⟩, block.isFinal⟩ : BlockSpan) = block.span first := by
  rw [place, stop, Nat.add_sub_cancel_left, span]

/-! ## Parsing -/

/-- The last of some blocks is final. -/
def EndsFinal (blocks : List Block) : Prop :=
  ∃ block ∈ blocks.getLast?, block.isFinal = true

instance (blocks : List Block) : Decidable (EndsFinal blocks) :=
  inferInstanceAs (Decidable (∃ block ∈ blocks.getLast?, block.isFinal = true))

theorem endsFinal_cons {block : Block} {blocks : List Block} :
    EndsFinal (block :: blocks) ↔
      (blocks = [] ∧ block.isFinal = true) ∨ EndsFinal blocks := by
  cases blocks with
  | nil => simp [EndsFinal]
  | cons next blocks => simp [EndsFinal]

theorem EndsFinal.ten_le_length {blocks : List Block} (final : EndsFinal blocks) (position : Nat) :
    10 ≤ (blockBits position blocks).length := by
  cases blocks with
  | nil =>
      obtain ⟨block, ⟨⟩, -⟩ := final
  | cons block blocks =>
      rw [blockBits, List.length_append]
      exact Nat.le_add_right_of_le (block.ten_le_length_bits position)

theorem eq_nil_of_final {block : Block} {blocks : List Block}
    (onlyLast : blocks ≠ [] → block.isFinal = false) (final : block.isFinal = true) :
    blocks = [] := by
  apply Classical.byContradiction
  intro more
  rw [onlyLast more] at final
  cases final

theorem parseBlocks_of_few {spans : Array BlockSpan} {before : Transcript}
    (few : before.remaining < 8) : parseBlocks spans before = ⟨.ok (), spans, before⟩ := by
  rw [parseBlocks, if_pos few]

theorem parseBlocks_of_error {spans : Array BlockSpan} {before after : Transcript}
    {failure : Failure} (run : readBlock before = .error failure after)
    (many : ¬ before.remaining < 8) : parseBlocks spans before = ⟨.error failure, spans, after⟩ := by
  rw [parseBlocks, if_neg many]
  dsimp only
  split
  · rename_i failed
    rw [run] at failed
    cases failed
    rfl
  · rename_i step
    rw [run] at step
    cases step

theorem parseBlocks_of_ok {spans : Array BlockSpan} {before after : Transcript} {last : Bool}
    (run : readBlock before = .ok last after) (many : ¬ before.remaining < 8) :
    parseBlocks spans before =
      let span := ⟨⟨before.source.offset, after.source.offset - before.source.offset⟩, last⟩
      if last then
        ⟨.ok (), spans.push span, after⟩
      else
        parseBlocks (spans.push span) after := by
  rw [parseBlocks, if_neg many]
  dsimp only
  split
  · rename_i failed
    rw [run] at failed
    cases failed
  · rename_i step
    rw [run] at step
    cases step
    rfl

/-- Blocks that can follow one another are parsed from their bits, if the last one is final or
fewer than eight bits follow. -/
theorem parseBlocks_complete {parsed : List Block} {source : BitSource}
    (wellFormed : source.WellFormed) (valid : BlocksValid source.offset parsed)
    (begins : blockBits source.offset parsed <+: source.bits)
    (ends : EndsFinal parsed ∨
      source.remaining < (blockBits source.offset parsed).length + 8)
    (spans : Array BlockSpan) (before : Array Element) :
    ∃ after, parseBlocks spans ⟨source, before⟩ =
        ⟨.ok (), spans ++ (blockSpans source.offset parsed).toArray,
          ⟨after, before ++ (parsed.flatMap Block.elements).toArray⟩⟩ ∧
      BitSource.Takes source after (blockBits source.offset parsed).length := by
  induction parsed generalizing source spans before with
  | nil =>
      have few : (⟨source, before⟩ : Transcript).remaining < 8 := by
        rcases ends with ⟨_, ⟨⟩, _⟩ | few
        rwa [blockBits, List.length_nil, Nat.zero_add] at few
      refine ⟨source, ?_, BitSource.Takes.refl wellFormed⟩
      rw [parseBlocks_of_few few]
      simp [blockSpans]
  | cons block parsed ih =>
      obtain ⟨blockValid, onlyLast, othersValid⟩ := valid
      rw [blockBits] at begins ends ⊢
      have starts := (List.prefix_append _ _).trans begins
      have many := Block.not_few starts
      obtain ⟨middle, run, taken⟩ := parses_readBlock.complete wellFormed
        ⟨block, rfl, blockValid, rfl, rfl⟩ starts before
      replace begins := taken.prefix_of_append begins
      have place : middle.offset = block.stop source.offset := taken.offset
      rw [← place] at othersValid begins ends ⊢
      rw [parseBlocks_of_ok run many]
      dsimp only
      rw [Block.span_of_stop taken.offset]
      -- Only the last block is final, so the parse stops there and nowhere before.
      cases final : block.isFinal with
      | true =>
          obtain rfl := eq_nil_of_final onlyLast final
          refine ⟨middle, ?_, ?_⟩
          · simp [blockSpans]
          · simpa [blockBits] using taken
      | false =>
          have ends : EndsFinal parsed ∨
              middle.remaining < (blockBits middle.offset parsed).length + 8 := by
            rcases ends with endsFinal | few
            · rcases endsFinal_cons.mp endsFinal with ⟨-, isFinal⟩ | laterFinal
              · rw [final] at isFinal
                cases isFinal
              · exact .inl laterFinal
            · have sizes := congrArg List.length (taken.bits_eq_append starts)
              rw [List.length_append, length_bits, length_bits] at sizes
              rw [List.length_append] at few
              exact .inr (by omega)
          obtain ⟨after, rest, moreTaken⟩ := ih taken.wellFormed othersValid begins ends
            (spans.push (block.span source.offset)) (before ++ block.elements.toArray)
          refine ⟨after, ?_, ?_⟩
          · rw [if_neg (by decide), rest, blockSpans, ← place]
            simp
          · rw [List.length_append]
            exact taken.trans moreTaken

/-- A parse that ends well has taken the bits of blocks that can follow one another. -/
theorem parseBlocks_sound {spans : Array BlockSpan} {before : Transcript}
    (wellFormed : before.source.WellFormed)
    (ended : (parseBlocks spans before).result = .ok ()) :
    ∃ parsed, BlocksValid before.source.offset parsed ∧
      blockBits before.source.offset parsed <+: before.source.bits ∧
      (parseBlocks spans before).blocks =
        spans ++ (blockSpans before.source.offset parsed).toArray ∧
      (parseBlocks spans before).transcript.elements =
        before.elements ++ (parsed.flatMap Block.elements).toArray ∧
      BitSource.Takes before.source (parseBlocks spans before).transcript.source
        (blockBits before.source.offset parsed).length ∧
      (EndsFinal parsed ∨ (parseBlocks spans before).transcript.source.remaining < 8) := by
  fun_induction parseBlocks spans before with
  | case1 spans before few =>
      exact ⟨[], trivial, List.nil_prefix, by simp [blockSpans], by simp,
        BitSource.Takes.refl wellFormed, .inr few⟩
  | case2 => cases ended
  | case3 spans before many start after step span =>
      obtain ⟨elements, word, ⟨block, final, valid, rfl, rfl⟩, begins, added, taken⟩ :=
        parses_readBlock.sound wellFormed step
      have place : after.source.offset = block.stop before.source.offset := taken.offset
      have spanned : span = block.span before.source.offset := by
        rw [← Block.span_of_stop place, final]
      refine ⟨[block], ⟨valid, fun more => absurd rfl more, trivial⟩, ?_, ?_, ?_, ?_, ?_⟩
      · simpa [blockBits] using begins
      · simp [blockSpans, spanned]
      · simpa using added
      · simpa [blockBits] using taken
      · exact .inl ⟨block, rfl, final⟩
  | case4 spans before many start last after step span notLast ih =>
      obtain ⟨elements, word, ⟨block, final, valid, rfl, rfl⟩, begins, added, taken⟩ :=
        parses_readBlock.sound wellFormed step
      have place : after.source.offset = block.stop before.source.offset := taken.offset
      have spanned : span = block.span before.source.offset := by
        rw [← Block.span_of_stop place, final]
      obtain ⟨parsed, othersValid, continues, moreSpans, moreElements, moreTaken, ends⟩ :=
        ih taken.wellFormed ended
      rw [place] at othersValid continues moreSpans moreTaken
      refine ⟨block :: parsed, ⟨valid, fun _ => ?_, othersValid⟩, ?_, ?_, ?_, ?_, ?_⟩
      · rw [final]
        exact Bool.eq_false_iff.mpr notLast
      · exact (taken.append_prefix_iff begins).mpr continues
      · rw [moreSpans, spanned, blockSpans]
        simp
      · rw [moreElements, added]
        simp
      · rw [blockBits, List.length_append]
        exact taken.trans moreTaken
      · rcases ends with endsFinal | few
        · exact .inl (endsFinal_cons.mpr (.inr endsFinal))
        · exact .inr few

/-! ## Where blocks begin

Blocks depend on where they begin only through the width of their padding, so
on the place in a byte.
-/

theorem Content.bits_congr {first second : Nat} (aligned : first % 8 = second % 8)
    (content : Content) : content.bits first = content.bits second := by
  cases content with
  | stored padding bytes => simp only [bits, paddingWidth_congr aligned]
  | fixed tokens => rfl
  | dynamic header tokens => rfl

theorem Block.openBits_congr {first second : Nat} (aligned : first % 8 = second % 8)
    (block : Block) : block.openBits first = block.openBits second := by
  have inner : (first + 3) % 8 = (second + 3) % 8 := by omega
  rw [openBits, openBits, block.content.bits_congr inner]

theorem Block.bits_congr {first second : Nat} (aligned : first % 8 = second % 8)
    (block : Block) : block.bits first = block.bits second := by
  have padded : paddingWidth (first + (block.openBits second).length) =
      paddingWidth (second + (block.openBits second).length) :=
    paddingWidth_congr (by omega)
  rw [bits, bits, block.openBits_congr aligned]
  cases block.finalPadding with
  | none => rfl
  | some padding => rw [finalBits, finalBits, padded]

theorem Block.valid_congr {first second : Nat} (aligned : first % 8 = second % 8)
    {block : Block} (valid : block.Valid first) : block.Valid second := by
  have inner : (first + 3) % 8 = (second + 3) % 8 := by omega
  have padded : paddingWidth (first + (block.openBits second).length) =
      paddingWidth (second + (block.openBits second).length) :=
    paddingWidth_congr (by omega)
  obtain ⟨contentValid, finalValid⟩ := valid
  rw [block.openBits_congr aligned, FinalValid, padded] at finalValid
  refine ⟨?_, finalValid⟩
  revert contentValid
  cases block.content with
  | stored padding bytes =>
      rw [Content.Valid, Content.Valid, paddingWidth_congr inner]
      exact id
  | fixed tokens => exact id
  | dynamic header tokens => exact id

theorem Block.stop_congr {first second : Nat} (aligned : first % 8 = second % 8)
    (block : Block) : block.stop first % 8 = block.stop second % 8 := by
  rw [stop, stop, block.bits_congr aligned]
  omega

theorem blockBits_congr {first second : Nat} (aligned : first % 8 = second % 8)
    (blocks : List Block) : blockBits first blocks = blockBits second blocks := by
  induction blocks generalizing first second with
  | nil => rfl
  | cons block blocks ih =>
      rw [blockBits, blockBits, block.bits_congr aligned, ih (block.stop_congr aligned)]

theorem blocksValid_congr {first second : Nat} (aligned : first % 8 = second % 8)
    {blocks : List Block} (valid : BlocksValid first blocks) : BlocksValid second blocks := by
  induction blocks generalizing first second with
  | nil => trivial
  | cons block blocks ih =>
      obtain ⟨blockValid, onlyLast, othersValid⟩ := valid
      exact ⟨block.valid_congr aligned blockValid, onlyLast,
        ih (block.stop_congr aligned) othersValid⟩

theorem map_length_blockSpans_congr {first second : Nat} (aligned : first % 8 = second % 8)
    (blocks : List Block) :
    (blockSpans first blocks).map (·.extent.length) =
      (blockSpans second blocks).map (·.extent.length) := by
  induction blocks generalizing first second with
  | nil => rfl
  | cons block blocks ih =>
      rw [blockSpans, blockSpans, List.map_cons, List.map_cons, ih (block.stop_congr aligned)]
      simp only [Block.span, block.bits_congr aligned]

end DeflateAtlas.Deflate
