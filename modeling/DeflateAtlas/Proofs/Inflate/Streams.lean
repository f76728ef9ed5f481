import DeflateAtlas.Probe
import DeflateAtlas.Proofs.Deflate.CodeLengths
import DeflateAtlas.Proofs.Deflate.Streams
import DeflateAtlas.Proofs.Inflate.Tables

/-!
# Inflating whole streams

Blocks that can follow one another up to a final one are inflated from their bits
to what they stand for.  Conversely a stream that can be inflated consists of such
blocks, or it goes on after some of them with a table in which a code has a single
word of more than one bit.  The inflater decodes with such a code, but a decoding
table for it is refused.
-/

namespace DeflateAtlas

open BitSource (numberSpelling paddingSpelling paddingWidth)
open Deflate Huffman

namespace Deflate

/-! ## Tables with a single long word -/

/-- A table that can be sent and whose codes the inflater accepts, though one of them has a single
word that is longer than one bit. -/
structure DynamicHeader.SendsSingleLong (header : DynamicHeader) : Prop where
  valid : header.Valid
  endOfBlock : HasWord header.literalLengths endOfBlock
  literals : DecodingTable.Accepted header.literalLengths true ∨
    Inflate.SingleLong header.literalLengths
  distances : DecodingTable.Accepted header.distanceLengths true ∨
    Inflate.SingleLong header.distanceLengths
  long : Inflate.SingleLong header.literalLengths ∨ Inflate.SingleLong header.distanceLengths

/-- Bits of blocks, none of them final, and then of a dynamic block as far as its table, which sends
a single long word. -/
def SingleLongAhead (position : Nat) (bits : List Bool) : Prop :=
  ∃ (parsed : List Block) (last : Bool) (header : DynamicHeader),
    BlocksValid position parsed ∧ (∀ block ∈ parsed, block.isFinal = false) ∧
      header.SendsSingleLong ∧ blockBits position parsed ++
        (last :: lowBits 2 BlockKind.dynamic.number ++ header.bits) <+: bits

theorem SingleLongAhead.cons {block : Block} {position number : Nat} {bits : List Bool}
    (valid : block.Valid position) (notFinal : block.isFinal = false)
    (begins : block.bits position <+: bits)
    (ahead : SingleLongAhead (block.stop position)
      ((bits.drop (block.bits position).length).take number)) :
    SingleLongAhead position (bits.take ((block.bits position).length + number)) := by
  obtain ⟨parsed, last, header, othersValid, noneFinal, long, continues⟩ := ahead
  refine ⟨block :: parsed, last, header, ⟨valid, fun _ => notFinal, othersValid⟩,
    List.forall_mem_cons.mpr ⟨notFinal, noneFinal⟩, long, ?_⟩
  rw [blockBits, List.append_assoc]
  exact Inflate.append_prefix_take_iff.mpr ⟨begins, continues⟩

theorem SingleLongAhead.mono {position : Nat} {bits longer : List Bool}
    (ahead : SingleLongAhead position bits) (begins : bits <+: longer) :
    SingleLongAhead position longer := by
  obtain ⟨parsed, last, header, valid, noneFinal, long, continues⟩ := ahead
  exact ⟨parsed, last, header, valid, noneFinal, long, continues.trans begins⟩

end Deflate

namespace Inflate

open BitCursor

/-! ## Stored blocks -/

theorem decodes_stored (position : Nat) (output : Bytes) :
    Decodes position (stored output) fun position result word =>
      ∃ padding bytes, (Content.stored padding bytes).Valid position ∧
        result = output ++ bytes ∧ word = (Content.stored padding bytes).bits position := by
  have aligned {word numberWord : List Bool} {number next : Nat}
      (padded : ∃ padding, paddingSpelling position padding word)
      (numbered : numberSpelling 32 next number numberWord) :
      (position + word.length + numberWord.length) % 8 = 0 := by
    obtain ⟨padding, -, rfl⟩ := padded
    rw [numbered.2, length_lowBits, length_lowBits, paddingWidth]
    omega
  apply ((decodes_align position).bind fun _ _ padded =>
    (decodes_bits _ 32).bind fun lengths _ numbered =>
      ((decodes_bytes (aligned padded numbered) (lengths % 65536)).bind fun bytes _ _ =>
        Decodes.pure (output ++ bytes)).ite (Decodes.throw .corrupt)).congr
  intro result word
  constructor
  · rintro ⟨_, _, _, ⟨padding, small, rfl⟩, ⟨lengths, _, _, ⟨-, rfl⟩, spelled, rfl⟩, rfl⟩
    split at spelled
    · rename_i complement
      obtain ⟨bytes, _, _, ⟨size, rfl⟩, ⟨rfl, rfl⟩, rfl⟩ := spelled
      have low : lowBits 16 (lengths % 65536) = lowBits 16 lengths :=
        lowBits_mod (Nat.le_refl 16) lengths
      have high : lengths / 2 ^ 16 = 65535 - bytes.size := by omega
      have number : lowBits 32 lengths =
          lowBits 16 bytes.size ++ lowBits 16 (65535 - bytes.size) := by
        rw [lowBits_add 16 16, high, ← low, size]
      exact ⟨padding, bytes, ⟨small, by omega⟩, rfl, by simp [Content.bits, number]⟩
    · exact spelled.elim
  · rintro ⟨padding, bytes, ⟨small, short⟩, rfl, rfl⟩
    have low : bytes.size < 2 ^ 16 := Nat.lt_succ_of_le short
    have number := lowBits_add_mul low 16 (65535 - bytes.size)
    have first : (bytes.size + 2 ^ 16 * (65535 - bytes.size)) % 65536 = bytes.size := by omega
    have second : (bytes.size + 2 ^ 16 * (65535 - bytes.size)) / 65536 = 65535 - bytes.size := by
      omega
    refine ⟨(), _, _, ⟨padding, small, rfl⟩,
      ⟨bytes.size + 2 ^ 16 * (65535 - bytes.size), _, bitsOfBytes bytes.toList,
        ⟨by omega, rfl⟩, ?_, rfl⟩, ?_⟩
    · rw [first, second, if_pos (by omega)]
      exact ⟨bytes, _, _, ⟨rfl, rfl⟩, ⟨rfl, rfl⟩, by rw [List.append_nil]⟩
    · rw [number]
      simp [Content.bits]

/-! ## Blocks of tokens -/

/-- Tokens end where the symbol that ends a block is decoded. -/
theorem exists_decode_of_tokens {literals distances : Codebook} {output result : Bytes}
    {cursor after : BitCursor} (ended : tokens literals distances output cursor = .ok result after) :
    ∃ before, literals.decode before = .ok endOfBlock after := by
  fun_induction tokens literals distances output cursor with
  | case1 => cases ended
  | case2 output cursor longer middle run =>
      cases ended
      obtain ⟨symbol, reached, decoded, rest⟩ := bind_eq_ok_iff.mp run
      split at rest
      · cases rest
      · split at rest
        · rename_i ends
          cases rest
          exact ⟨cursor, ends ▸ decoded⟩
        · obtain ⟨_, _, -, rest⟩ := bind_eq_ok_iff.mp rest
          obtain ⟨_, _, -, rest⟩ := bind_eq_ok_iff.mp rest
          obtain ⟨_, _, -, rest⟩ := bind_eq_ok_iff.mp rest
          cases rest
  | case3 output cursor longer middle run ih => exact ih ended

/-- Whatever the codes are, tokens are read in one direction. -/
theorem advances_tokens (literals distances : Codebook) (output : Bytes) :
    Advances (tokens literals distances output) := by
  have step (output : Bytes) : Advances (step literals distances output) :=
    (Decodes.advances literals.decodes_decode).bind fun symbol =>
      (Advances.pure _).ite <| (Advances.pure _).ite <|
        (Decodes.advances (decodes_number lengthRanges _)).bind fun _ =>
          (Decodes.advances distances.decodes_decode).bind fun symbol =>
            (Decodes.advances (decodes_number distanceRanges symbol)).bind fun _ => Advances.pure _
  intro cursor after value inside ended
  fun_induction tokens literals distances output cursor with
  | case1 => cases ended
  | case2 output cursor result middle run =>
      cases ended
      exact step output inside run
  | case3 output cursor longer middle run ih =>
      obtain ⟨early, rfl, middleInside⟩ := step output inside run
      obtain ⟨late, rfl, afterInside⟩ := ih middleInside ended
      exact ⟨early + late, advance_advance _ _ _, afterInside⟩

theorem inside_of_decode {codebook : Codebook} {cursor after : BitCursor} {symbol : Nat}
    (decoded : codebook.decode cursor = .ok symbol after) : cursor.Inside := by
  obtain ⟨first, middle, run, -⟩ := bind_eq_ok_iff.mp decoded
  simp only [bit] at run
  split at run
  · rw [Inside]
    omega
  · cases run

theorem decodes_fixed (position : Nat) (output : Bytes) :
    Decodes position (tokens fixedLiterals fixedDistances output) fun _ result word =>
      ∃ tokens, (∀ token ∈ tokens, token.Valid) ∧
        result = (tokens.foldl Token.expandOnto output.toList).toArray ∧
        word = tokenBits fixedLiteralLengths fixedDistanceLengths tokens := by
  apply (decodes_tokens
    (Codebook.decodes_ofLengths BlockCodes.complete_fixedLiteralLengths.fits)
    (Codebook.decodes_ofLengths BlockCodes.complete_fixedDistanceLengths.fits) position output).congr
  intro result word
  simp only [tokensValid_fixed]

theorem accepted_or_sendsSingleLong {header : DynamicHeader} (valid : header.Valid)
    {literals distances : Codebook}
    (foundLiterals : Codebook.ofLengths? header.literalLengths = some literals)
    (foundDistances : Codebook.ofLengths? header.distanceLengths = some distances)
    {output result : Bytes} {cursor after : BitCursor}
    (ended : tokens literals distances output cursor = .ok result after) :
    (DecodingTable.Accepted header.literalLengths true ∧
      DecodingTable.Accepted header.distanceLengths true) ∨ header.SendsSingleLong := by
  -- The inflater does not ask for a word that ends the block, but without one it never ends well.
  obtain ⟨literalsShort, distancesShort⟩ := valid.lengths_short
  obtain ⟨before, decoded⟩ := exists_decode_of_tokens ended
  have endOfBlock : HasWord header.literalLengths endOfBlock := by
    obtain ⟨word, held, -⟩ :=
      (literals.decodes_decode before.offset before _ _ rfl (inside_of_decode decoded)).mp decoded
    exact ((Codebook.holds_of_ofLengths? foundLiterals literalsShort (by decide) word).mp held).1
  have literalsTaken := (Codebook.exists_ofLengths?_iff literalsShort).mp ⟨_, foundLiterals⟩
  have distancesTaken := (Codebook.exists_ofLengths?_iff distancesShort).mp ⟨_, foundDistances⟩
  by_cases long : SingleLong header.literalLengths ∨ SingleLong header.distanceLengths
  · exact .inr ⟨valid, endOfBlock, literalsTaken, distancesTaken, long⟩
  · rw [not_or] at long
    exact .inl ⟨literalsTaken.resolve_right long.1, distancesTaken.resolve_right long.2⟩

/-! ## Contents -/

section Cursor

variable {position : Nat} {cursor after : BitCursor} {output result : Bytes}
  (place : cursor.offset = position) (inside : cursor.Inside)
include place inside

theorem dynamic_of_bits {header : DynamicHeader} {parsed : List Token}
    (valid : (Content.dynamic header parsed).Valid position)
    (begins : (Content.dynamic header parsed).bits position <+: cursor.rest) :
    content BlockKind.dynamic.number output cursor =
      .ok ((Content.dynamic header parsed).expandOnto output.toList).toArray
        (cursor.advance ((Content.dynamic header parsed).bits position).length) := by
  obtain ⟨headerValid, codesValid, tokensValid⟩ := valid
  obtain ⟨literalsShort, distancesShort⟩ := headerValid.lengths_short
  obtain ⟨literalsTaken, distancesTaken⟩ :=
    (DynamicHeader.codesValid_iff tokensValid.1).mp codesValid
  obtain ⟨literals, foundLiterals⟩ :=
    (Codebook.exists_ofLengths?_iff literalsShort).mpr (.inl literalsTaken)
  obtain ⟨distances, foundDistances⟩ :=
    (Codebook.exists_ofLengths?_iff distancesShort).mpr (.inl distancesTaken)
  obtain ⟨begins, continues⟩ := append_prefix_iff.mp begins
  have table := (decodes_dynamicCodes position _ _ (literals, distances) place inside).mpr
    ⟨_, ⟨header, ⟨headerValid, foundLiterals, foundDistances⟩, rfl⟩, begins, rfl⟩
  rw [← rest_advance] at continues
  have rest := (decodes_tokens (Codebook.decodes_of_accepted foundLiterals literalsTaken)
    (Codebook.decodes_of_accepted foundDistances distancesTaken) _ output _ _ _ rfl
    (inside.advance begins)).mpr ⟨_, ⟨parsed, tokensValid, rfl, rfl⟩, continues, rfl⟩
  rw [Content.bits, List.length_append, ← advance_advance]
  exact bind_eq_ok_iff.mpr ⟨_, _, table, rest⟩

theorem dynamic_sound (ended : content BlockKind.dynamic.number output cursor = .ok result after) :
    ∃ header : DynamicHeader,
      (∃ parsed, (Content.dynamic header parsed).Valid position ∧
        (Content.dynamic header parsed).bits position <+: cursor.rest ∧
        result = ((Content.dynamic header parsed).expandOnto output.toList).toArray ∧
        after = cursor.advance ((Content.dynamic header parsed).bits position).length) ∨
      (header.SendsSingleLong ∧ ∃ number, header.bits <+: cursor.rest.take number ∧
        after = cursor.advance number ∧ after.Inside) := by
  obtain ⟨⟨literals, distances⟩, middle, table, rest⟩ := bind_eq_ok_iff.mp ended
  obtain ⟨_, ⟨header, ⟨valid, foundLiterals, foundDistances⟩, rfl⟩, begins, rfl⟩ :=
    (decodes_dynamicCodes position _ _ _ place inside).mp table
  dsimp only at foundLiterals foundDistances rest
  refine ⟨header, ?_⟩
  rcases accepted_or_sendsSingleLong valid foundLiterals foundDistances rest with accepted | long
  · obtain ⟨_, ⟨parsed, tokensValid, rfl, rfl⟩, continues, rfl⟩ :=
      (decodes_tokens (Codebook.decodes_of_accepted foundLiterals accepted.1)
        (Codebook.decodes_of_accepted foundDistances accepted.2) _ output _ _ _ rfl
        (inside.advance begins)).mp rest
    rw [rest_advance] at continues
    have codesValid := (DynamicHeader.codesValid_iff tokensValid.1).mpr accepted
    refine .inl ⟨parsed, ⟨valid, codesValid, tokensValid⟩,
      append_prefix_iff.mpr ⟨begins, continues⟩, rfl, ?_⟩
    rw [advance_advance, Content.bits, List.length_append]
  · obtain ⟨number, rfl, afterInside⟩ :=
      advances_tokens literals distances output (inside.advance begins) rest
    rw [advance_advance] at afterInside ⊢
    exact .inr ⟨long, _, List.prefix_take_iff.mpr ⟨begins, Nat.le_add_right _ _⟩, rfl, afterInside⟩

/-- A block without tokens is inflated even if its table sends a single long word. -/
theorem content_of_sendsSingleLong {header : DynamicHeader} (long : header.SendsSingleLong)
    (begins : (Content.dynamic header []).bits position <+: cursor.rest) :
    content BlockKind.dynamic.number output cursor =
      .ok output (cursor.advance ((Content.dynamic header []).bits position).length) := by
  obtain ⟨literalsShort, distancesShort⟩ := long.valid.lengths_short
  obtain ⟨literals, foundLiterals⟩ := (Codebook.exists_ofLengths?_iff literalsShort).mpr long.literals
  obtain ⟨distances, foundDistances⟩ :=
    (Codebook.exists_ofLengths?_iff distancesShort).mpr long.distances
  obtain ⟨begins, continues⟩ := append_prefix_iff.mp begins
  have table := (decodes_dynamicCodes position _ _ (literals, distances) place inside).mpr
    ⟨_, ⟨header, ⟨long.valid, foundLiterals, foundDistances⟩, rfl⟩, begins, rfl⟩
  rw [← rest_advance] at continues
  have held := (Codebook.holds_of_ofLengths? foundLiterals literalsShort (by decide) _).mpr
    ⟨long.endOfBlock, rfl⟩
  have decoded := (literals.decodes_decode _ _ _ endOfBlock rfl (inside.advance begins)).mpr
    ⟨_, held, continues, rfl⟩
  have ends := tokens_of_end (bind_eq_ok_iff.mpr ⟨_, _, decoded, rfl⟩ :
    step literals distances output _ = .ok (output, false) _)
  rw [Content.bits, List.length_append, ← advance_advance]
  exact bind_eq_ok_iff.mpr ⟨_, _, table, ends⟩

theorem content_of_bits {content : Content} (valid : content.Valid position)
    (begins : content.bits position <+: cursor.rest) :
    Inflate.content content.kind.number output cursor =
      .ok (content.expandOnto output.toList).toArray
        (cursor.advance (content.bits position).length) := by
  cases content with
  | stored padding bytes =>
      exact (decodes_stored position output _ _ _ place inside).mpr
        ⟨_, ⟨padding, bytes, valid, by simp [Content.expandOnto], rfl⟩, begins, rfl⟩
  | fixed tokens =>
      exact (decodes_fixed position output _ _ _ place inside).mpr
        ⟨_, ⟨tokens, valid, rfl, rfl⟩, begins, rfl⟩
  | dynamic header tokens => exact dynamic_of_bits place inside valid begins

theorem content_sound {number : Nat}
    (ended : Inflate.content number output cursor = .ok result after) :
    (∃ content : Content, content.kind.number = number ∧ content.Valid position ∧
      content.bits position <+: cursor.rest ∧
      result = (content.expandOnto output.toList).toArray ∧
      after = cursor.advance (content.bits position).length) ∨
    ∃ header : DynamicHeader, BlockKind.dynamic.number = number ∧ header.SendsSingleLong ∧
      ∃ number, header.bits <+: cursor.rest.take number ∧ after = cursor.advance number ∧
        after.Inside := by
  cases known : BlockKind.ofNumber? number with
  | none =>
      rw [Inflate.content, known] at ended
      cases ended
  | some kind =>
      obtain rfl := BlockKind.ofNumber?_eq_some_iff.mp known
      cases kind with
      | stored =>
          obtain ⟨_, ⟨padding, bytes, valid, rfl, rfl⟩, begins, rfl⟩ :=
            (decodes_stored position output _ _ _ place inside).mp ended
          exact .inl ⟨.stored padding bytes, rfl, valid, begins, by simp [Content.expandOnto], rfl⟩
      | fixed =>
          obtain ⟨_, ⟨parsed, valid, rfl, rfl⟩, begins, rfl⟩ :=
            (decodes_fixed position output _ _ _ place inside).mp ended
          exact .inl ⟨.fixed parsed, rfl, valid, begins, rfl, rfl⟩
      | dynamic =>
          obtain ⟨header, ⟨parsed, rest⟩ | long⟩ := dynamic_sound place inside ended
          · exact .inl ⟨.dynamic header parsed, rfl, rest⟩
          · exact .inr ⟨header, rfl, long⟩

/-! ## Blocks -/

omit place inside in
theorem lowBits_header (last : Bool) (number : Nat) :
    lowBits 3 (last.toNat + 2 * number) = last :: lowBits 2 number := by
  have small : last.toNat < 2 ^ 1 := last.toNat_lt
  have first : lowBits 1 last.toNat = [last] := by
    cases last <;> rfl
  have parts := lowBits_add_mul small 2 number
  rwa [first, Nat.pow_one] at parts

/-- A block is inflated if its content is. -/
theorem block_of_content {parsed : Block} (begins : parsed.openBits position <+: cursor.rest)
    (run : ∀ further : BitCursor, further.offset = position + 3 → further.Inside →
      parsed.content.bits (position + 3) <+: further.rest →
      content parsed.content.kind.number output further =
        .ok result (further.advance (parsed.content.bits (position + 3)).length)) :
    block output cursor =
      .ok (result, parsed.isFinal) (cursor.advance (parsed.openBits position).length) := by
  have number := parsed.content.kind.number_lt
  have last := parsed.isFinal.toNat_lt
  rw [Block.openBits, ← lowBits_header] at begins ⊢
  obtain ⟨begins, continues⟩ := append_prefix_iff.mp begins
  have header := (decodes_bits position 3 _ _ _ place inside).mpr
    ⟨_, ⟨by omega, rfl⟩, begins, rfl⟩
  have further : (cursor.advance (lowBits 3 (parsed.isFinal.toNat +
      2 * parsed.content.kind.number)).length).offset = position + 3 := by
    rw [offset_advance, place, length_lowBits]
  rw [← rest_advance] at continues
  have kind : (parsed.isFinal.toNat + 2 * parsed.content.kind.number) / 2 =
      parsed.content.kind.number := by omega
  have final : ((parsed.isFinal.toNat + 2 * parsed.content.kind.number) % 2 == 1) =
      parsed.isFinal := by
    rw [Nat.add_mul_mod_self_left]
    cases parsed.isFinal <;> rfl
  refine bind_eq_ok_iff.mpr ⟨_, _, header, bind_eq_ok_iff.mpr
    ⟨_, _, by rw [kind]; exact run _ further (inside.advance begins) continues, ?_⟩⟩
  rw [final, advance_advance, List.length_append]
  rfl

theorem block_of_bits {parsed : Block} (valid : parsed.Valid position)
    (begins : parsed.openBits position <+: cursor.rest) :
    block output cursor =
      .ok ((parsed.content.expandOnto output.toList).toArray, parsed.isFinal)
        (cursor.advance (parsed.openBits position).length) :=
  block_of_content place inside begins fun _ place inside begins =>
    content_of_bits place inside valid.1 begins

omit place in
/-- The bits up to the next byte boundary are there. -/
theorem exists_padding : ∃ padding word, paddingSpelling cursor.offset padding word ∧
    word <+: cursor.rest := by
  obtain ⟨word, ⟨padding, spelled⟩, begins, -⟩ :=
    (decodes_align cursor.offset _ _ () rfl inside).mp rfl
  exact ⟨padding, word, spelled, begins⟩

/-- A final block has padding behind it, whatever bits these are. -/
theorem exists_block {content : Content} {last : Bool} (valid : content.Valid (position + 3))
    (opens : last :: lowBits 2 content.kind.number ++ content.bits (position + 3) <+: cursor.rest) :
    ∃ parsed : Block, parsed.content = content ∧ parsed.isFinal = last ∧ parsed.Valid position ∧
      parsed.bits position <+: cursor.rest := by
  cases last with
  | false =>
      refine ⟨⟨content, none⟩, rfl, rfl, ⟨valid, finalValid_none _⟩, ?_⟩
      rwa [Block.bits, finalBits, List.append_nil]
  | true =>
      obtain ⟨padding, word, ⟨small, rfl⟩, follows⟩ := exists_padding (inside.advance opens)
      rw [rest_advance] at follows
      rw [offset_advance, place] at small follows
      refine ⟨⟨content, some padding⟩, rfl, rfl, ⟨valid, ?_⟩, append_prefix_iff.mpr ⟨opens, follows⟩⟩
      rintro same ⟨⟩
      exact small

theorem block_sound {last : Bool} (ended : block output cursor = .ok (result, last) after) :
    (∃ parsed : Block, parsed.isFinal = last ∧ parsed.Valid position ∧
      parsed.bits position <+: cursor.rest ∧
      result = (parsed.content.expandOnto output.toList).toArray ∧
      after = cursor.advance (parsed.openBits position).length) ∨
    ∃ header : DynamicHeader, header.SendsSingleLong ∧ ∃ number,
      last :: lowBits 2 BlockKind.dynamic.number ++ header.bits <+: cursor.rest.take number ∧
        after = cursor.advance number ∧ after.Inside := by
  obtain ⟨number, _, header, ended⟩ := bind_eq_ok_iff.mp ended
  obtain ⟨longer, reached, rest, ⟨⟩⟩ := bind_eq_ok_iff.mp ended
  obtain ⟨_, ⟨small, rfl⟩, begins, rfl⟩ := (decodes_bits position 3 _ _ _ place inside).mp header
  have digits : (number % 2 == 1).toNat + 2 * (number / 2) = number := by
    rcases Nat.mod_two_eq_zero_or_one number with even | odd
    · rw [even]
      simp only [Nat.reduceBEq, Bool.toNat_false]
      omega
    · rw [odd]
      simp only [BEq.rfl, Bool.toNat_true]
      omega
  have spelled := lowBits_header (number % 2 == 1) (number / 2)
  rw [digits] at spelled
  have further : (cursor.advance (lowBits 3 number).length).offset = position + 3 := by
    rw [offset_advance, place, length_lowBits]
  rcases content_sound further (inside.advance begins) rest with
    ⟨content, kind, valid, continues, rfl, rfl⟩ |
      ⟨header, kind, long, number, continues, rfl, afterInside⟩
  · rw [rest_advance] at continues
    have opens := append_prefix_iff.mpr ⟨begins, continues⟩
    rw [spelled, ← kind] at opens
    obtain ⟨parsed, rfl, final, parsedValid, starts⟩ := exists_block place inside valid opens
    refine .inl ⟨parsed, final, parsedValid, starts, rfl, ?_⟩
    rw [advance_advance, Block.openBits, final, ← List.length_append, spelled, kind]
  · rw [rest_advance] at continues
    have opens := append_prefix_take_iff.mpr ⟨begins, continues⟩
    rw [advance_advance] at afterInside ⊢
    refine .inr ⟨header, long, _, ?_, rfl, afterInside⟩
    rwa [spelled, ← kind] at opens ⊢

end Cursor

/-! ## Streams -/

theorem blocks_of_final {output longer : Bytes} {cursor after : BitCursor}
    (run : block output cursor = .ok (longer, true) after) :
    blocks output cursor = .ok longer after := by
  rw [blocks]
  split
  · rename_i failed
    rw [run] at failed
    cases failed
  · rename_i ended
    rw [run] at ended
    cases ended
    rfl
  · rename_i more
    rw [run] at more
    cases more

theorem blocks_of_other {output longer : Bytes} {cursor after : BitCursor}
    (run : block output cursor = .ok (longer, false) after) :
    blocks output cursor = blocks longer after := by
  conv => lhs; rw [blocks]
  split
  · rename_i failed
    rw [run] at failed
    cases failed
  · rename_i ended
    rw [run] at ended
    cases ended
  · rename_i more
    rw [run] at more
    cases more
    rfl

theorem bytesTouched_advance_final {parsed : Block} (final : parsed.isFinal = true)
    {cursor : BitCursor} {position : Nat} (place : cursor.offset = position) :
    (cursor.advance (parsed.openBits position).length).bytesTouched * 8 = parsed.stop position := by
  obtain ⟨content, finalPadding⟩ := parsed
  cases finalPadding with
  | none => cases final
  | some padding =>
      rw [bytesTouched_mul_eight, offset_advance, place, Block.stop, Block.bits, finalBits,
        List.length_append, length_lowBits, Nat.add_assoc]

theorem openBits_of_other {parsed : Block} (notFinal : parsed.isFinal = false) (position : Nat) :
    parsed.openBits position = parsed.bits position := by
  obtain ⟨content, finalPadding⟩ := parsed
  cases finalPadding with
  | none => rw [Block.bits, finalBits, List.append_nil]
  | some padding => cases notFinal

variable {position : Nat} {cursor after : BitCursor} {output result : Bytes}

theorem blocks_of_bits {parsed : List Block} (place : cursor.offset = position)
    (inside : cursor.Inside) (valid : BlocksValid position parsed) (final : EndsFinal parsed)
    (begins : blockBits position parsed <+: cursor.rest) :
    ∃ after, blocks output cursor = .ok (expandOnto output.toList parsed).toArray after ∧
      after.bytesTouched * 8 = position + (blockBits position parsed).length := by
  induction parsed generalizing cursor output position with
  | nil =>
      obtain ⟨block, ⟨⟩, -⟩ := final
  | cons block parsed ih =>
      obtain ⟨blockValid, onlyLast, othersValid⟩ := valid
      obtain ⟨begins, continues⟩ := append_prefix_iff.mp begins
      have opens := (List.prefix_append _ _).trans begins
      have run : Inflate.block output cursor = _ := block_of_bits place inside blockValid opens
      cases isFinal : block.isFinal with
      | true =>
          obtain rfl := eq_nil_of_final onlyLast isFinal
          rw [isFinal] at run
          refine ⟨_, blocks_of_final run, ?_⟩
          rw [bytesTouched_advance_final isFinal place, blockBits, blockBits, List.append_nil]
          rfl
      | false =>
          have laterFinal : EndsFinal parsed := by
            rcases endsFinal_cons.mp final with ⟨-, alsoFinal⟩ | later
            · rw [isFinal] at alsoFinal
              cases alsoFinal
            · exact later
          rw [openBits_of_other isFinal, isFinal] at run
          rw [← rest_advance] at continues
          have further : (cursor.advance (block.bits position).length).offset =
              block.stop position := by
            rw [offset_advance, place, Block.stop]
          obtain ⟨after, rest, stop⟩ :=
            ih further (inside.advance begins) othersValid laterFinal continues
          refine ⟨after, (blocks_of_other run).trans rest, ?_⟩
          rw [stop, blockBits, List.length_append, Block.stop, Nat.add_assoc]

theorem blocks_sound (place : cursor.offset = position) (inside : cursor.Inside)
    (ended : blocks output cursor = .ok result after) :
    ∃ number, after = cursor.advance number ∧ after.Inside ∧
      ((∃ parsed, BlocksValid position parsed ∧ EndsFinal parsed ∧
        blockBits position parsed <+: cursor.rest ∧
        result = (expandOnto output.toList parsed).toArray ∧
        after.bytesTouched * 8 = position + (blockBits position parsed).length) ∨
      SingleLongAhead position (cursor.rest.take number)) := by
  fun_induction blocks output cursor generalizing position with
  | case1 => cases ended
  | case2 output cursor longer middle run =>
      cases ended
      rcases block_sound place inside run with
        ⟨block, final, valid, begins, rfl, rfl⟩ | ⟨header, long, number, begins, rfl, afterInside⟩
      · have opens := (List.prefix_append _ _).trans begins
        refine ⟨_, rfl, inside.advance opens, .inl ⟨[block],
          ⟨valid, fun more => absurd rfl more, trivial⟩, ⟨block, rfl, final⟩, ?_, rfl, ?_⟩⟩
        · rwa [blockBits, blockBits, List.append_nil]
        · rw [bytesTouched_advance_final final place, blockBits, blockBits, List.append_nil]
          rfl
      · exact ⟨number, rfl, afterInside, .inr ⟨[], true, header, trivial, List.forall_mem_nil _, long, begins⟩⟩
  | case3 output cursor longer middle run ih =>
      rcases block_sound place inside run with
        ⟨block, notFinal, valid, begins, rfl, rfl⟩ |
          ⟨header, long, number, begins, rfl, middleInside⟩
      · rw [openBits_of_other notFinal] at ih ended
        have further : (cursor.advance (block.bits position).length).offset =
            block.stop position := by
          rw [offset_advance, place, Block.stop]
        obtain ⟨number, rfl, afterInside, rest⟩ := ih further (inside.advance begins) ended
        rw [advance_advance] at afterInside rest ⊢
        rw [rest_advance] at rest
        refine ⟨_, rfl, afterInside, ?_⟩
        rcases rest with ⟨parsed, othersValid, final, continues, rfl, stop⟩ | ahead
        · refine .inl ⟨block :: parsed, ⟨valid, fun _ => notFinal, othersValid⟩,
            endsFinal_cons.mpr (.inr final), append_prefix_iff.mpr ⟨begins, continues⟩, rfl, ?_⟩
          rw [stop, blockBits, List.length_append, Block.stop, Nat.add_assoc]
        · exact .inr (ahead.cons valid notFinal begins)
      · -- The first such table decides; of what follows only its length is needed.
        obtain ⟨more, rfl, afterInside, -⟩ := ih rfl middleInside ended
        have ahead : SingleLongAhead position (cursor.rest.take number) :=
          ⟨[], false, header, trivial, List.forall_mem_nil _, long, begins⟩
        rw [advance_advance] at afterInside ⊢
        exact ⟨_, rfl, afterInside,
          .inr (ahead.mono (List.take_prefix_take_left (Nat.le_add_right number more)))⟩

end Inflate

/-! ## Measuring -/

/-- The measures of a stream of blocks. -/
def measurement (position : Nat) (parsed : List Block) : Measurement where
  compressed := (blockBits position parsed).length / 8
  uncompressed := (parsed.map (·.content.size)).sum
  crc32 := Crc32.checksum (expand parsed).toArray

namespace Probe

variable {data : Bytes} {start : Nat}

theorem measurement_eq {parsed : List Block} {after : Inflate.BitCursor}
    (stop : after.bytesTouched * 8 = start * 8 + (blockBits (start * 8) parsed).length) :
    (⟨after.bytesTouched - start, (expand parsed).toArray.size,
      Crc32.checksum (expand parsed).toArray⟩ : Measurement) = measurement (start * 8) parsed := by
  have compressed : after.bytesTouched - start = (blockBits (start * 8) parsed).length / 8 := by
    omega
  rw [compressed, List.size_toArray, length_expand, measurement]

theorem inflating_of_blocks {parsed : List Block}
    (many : 10 ≤ (blockBits (start * 8) parsed).length)
    (begins : blockBits (start * 8) parsed <+: (bitsOfBytes data.toList).drop (start * 8))
    (run : Inflate.BitCursor.Inside ⟨data, start * 8⟩ →
      ∃ after, Inflate.blocks #[] ⟨data, start * 8⟩ = .ok (expand parsed).toArray after ∧
        after.bytesTouched * 8 = start * 8 + (blockBits (start * 8) parsed).length) :
    inflating data start = .ok (measurement (start * 8) parsed) := by
  have size := begins.length_le
  simp only [List.length_drop, length_bitsOfBytes, Array.length_toList] at size
  have inside : start * 8 ≤ data.size * 8 := by omega
  obtain ⟨after, run, stop⟩ := run inside
  rw [inflating, if_neg (by omega), Inflate.inflate, run, ← measurement_eq stop]

theorem inflating_of_bits {parsed : List Block} (valid : BlocksValid (start * 8) parsed)
    (final : EndsFinal parsed)
    (begins : blockBits (start * 8) parsed <+: (bitsOfBytes data.toList).drop (start * 8)) :
    inflating data start = .ok (measurement (start * 8) parsed) :=
  inflating_of_blocks (final.ten_le_length (start * 8)) begins fun inside =>
    Inflate.blocks_of_bits rfl inside valid final begins

/-- A block without tokens is measured even if its table sends a single long word. -/
theorem inflating_of_sendsSingleLong {header : DynamicHeader} {padding : UInt8}
    (long : header.SendsSingleLong)
    (begins : blockBits (start * 8) [⟨.dynamic header [], some padding⟩] <+:
      (bitsOfBytes data.toList).drop (start * 8)) :
    inflating data start = .ok (measurement (start * 8) [⟨.dynamic header [], some padding⟩]) := by
  have final : EndsFinal [⟨.dynamic header [], some padding⟩] := ⟨_, rfl, rfl⟩
  refine inflating_of_blocks (final.ten_le_length (start * 8)) begins fun inside => ?_
  rw [blockBits, blockBits, List.append_nil] at begins ⊢
  have run : Inflate.block #[] ⟨data, start * 8⟩ = .ok (#[], true) _ :=
    Inflate.block_of_content rfl inside ((List.prefix_append _ _).trans begins)
      fun _ place inside begins => Inflate.content_of_sendsSingleLong place inside long begins
  exact ⟨_, Inflate.blocks_of_final run, Inflate.bytesTouched_advance_final rfl rfl⟩

theorem inflating_sound {measured : Measurement} (ended : inflating data start = .ok measured) :
    start + measured.compressed ≤ data.size ∧
      ((∃ parsed, BlocksValid (start * 8) parsed ∧ EndsFinal parsed ∧
        blockBits (start * 8) parsed <+: (bitsOfBytes data.toList).drop (start * 8) ∧
        measured = measurement (start * 8) parsed) ∨
      SingleLongAhead (start * 8) (bitsOfBytes (data.slice start measured.compressed).toList)) := by
  rw [inflating] at ended
  split at ended
  · cases ended
  · rename_i within
    have inside : (⟨data, start * 8⟩ : Inflate.BitCursor).Inside := by
      change start * 8 ≤ data.size * 8
      omega
    rw [Inflate.inflate] at ended
    cases run : Inflate.blocks #[] ⟨data, start * 8⟩ with
    | error defect after =>
        rw [run] at ended
        cases defect <;> cases ended
    | ok output after =>
        rw [run] at ended
        cases ended
        obtain ⟨number, rfl, afterInside, rest⟩ := Inflate.blocks_sound rfl inside run
        change start * 8 + number ≤ data.size * 8 at afterInside
        generalize stopped : Inflate.BitCursor.advance ⟨data, start * 8⟩ number = after at rest ⊢
        have touched : after.bytesTouched = bytesForBits (start * 8 + number) := by
          rw [← stopped]
          rfl
        rw [bytesForBits] at touched
        refine ⟨by dsimp only; omega, ?_⟩
        rcases rest with ⟨parsed, valid, final, begins, rfl, stop⟩ | ahead
        · exact .inl ⟨parsed, valid, final, begins, measurement_eq stop⟩
        · rw [bitsOfBytes_slice]
          exact .inr (ahead.mono (List.take_prefix_take_left (by dsimp only; omega)))

end Probe

end DeflateAtlas
