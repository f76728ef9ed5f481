import DeflateAtlas.Inflate.Stream
import DeflateAtlas.Proofs.Deflate.Expansion
import DeflateAtlas.Proofs.Deflate.Tokens
import DeflateAtlas.Proofs.Inflate.Codes

/-!
# Carrying out tokens

The inflater has no tokens: it reads symbols and extra bits and at once changes
its output.  What it reads are the bits of tokens all the same, and its output
grows by what they stand for.  Copying byte by byte gives an echo, since a copied
byte is there when the copy comes round to it.
-/

namespace DeflateAtlas.Inflate

open BitSource (Spelling)
open Deflate Huffman

/-! ## Copying -/

theorem toList_copy {distance : Nat} (positive : 0 < distance) (length : Nat) (output : Bytes) :
    (copy distance length output).toList = output.toList ++ echo distance length output.toList := by
  induction length generalizing output with
  | zero => simp [copy, echo]
  | succ length ih =>
      have next : (if output.size < distance then 0 else output.getD (output.size - distance) 0) =
          byteBefore output.toList distance := by
        simp [byteBefore]
      rw [copy, next, ih, Array.toList_push, echo_succ positive, List.append_assoc]
      rfl

theorem copy_eq_expandOnto {length distance : Nat} {irregular : Bool}
    (valid : (Token.reference length distance irregular).Valid) (output : Bytes) :
    copy distance length output =
      ((Token.reference length distance irregular).expandOnto output.toList).toArray := by
  rw [Token.expandOnto, ← toList_copy valid.2.2.1, Array.toArray_toList]

/-! ## One token -/

theorem decodes_number (ranges : Array NumberRange) (index position : Nat) :
    Decodes position (number ranges index) fun _ number word =>
      (∃ range, ranges[index]? = some range ∧ range.contains number = true) ∧
        word = extraBits ranges index number := by
  unfold number extraBits
  cases listed : ranges[index]? with
  | none =>
      apply (Decodes.throw .corrupt).congr
      intro number word
      simp
  | some range =>
      apply ((decodes_bits position range.extraBits).map (range.base + ·)).congr
      intro number word
      constructor
      · rintro ⟨extra, ⟨small, rfl⟩, rfl⟩
        refine ⟨⟨range, rfl, ?_⟩, ?_⟩
        · rw [NumberRange.contains_iff]
          omega
        · simp
      · rintro ⟨⟨_, ⟨⟩, contains⟩, rfl⟩
        rw [NumberRange.contains_iff] at contains
        exact ⟨number - range.base, ⟨by omega, rfl⟩, by omega⟩

theorem push_eq_expandOnto (byte : UInt8) (output : Bytes) :
    output.push byte = ((Token.literal byte).expandOnto output.toList).toArray := by
  rw [Token.expandOnto, ← Array.toList_push, Array.toArray_toList]

/-- What a step of the inflater reads and does: the end of a block or a token. -/
def stepSpelling (literals distances : List Nat) (output : Bytes) : Spelling (Bytes × Bool) :=
  fun _ result word =>
    (result = (output, false) ∧ HasWord literals endOfBlock ∧
      word = wordBits literals endOfBlock) ∨
    ∃ token : Token, result = ((token.expandOnto output.toList).toArray, true) ∧
      (token.Valid ∧ token.Expressible literals distances) ∧ word = token.bits literals distances

section Codes

variable {literals distances : List Nat} {literalCode distanceCode : Codebook}
  (readsLiterals : ∀ position, Decodes position literalCode.decode (wordSpelling literals))
  (readsDistances : ∀ position, Decodes position distanceCode.decode (wordSpelling distances))

include readsDistances in
theorem decodes_reference (index position : Nat) (output : Bytes) :
    Decodes position (do
        let length ← number lengthRanges index
        let symbol ← distanceCode.decode
        let distance ← number distanceRanges symbol
        return (copy distance length output, true))
      fun _ result word => ∃ length distance irregular,
        (Token.reference length distance irregular).Valid ∧
          index = lengthIndex length irregular ∧ HasWord distances (distanceSymbol distance) ∧
          result = (((Token.reference length distance irregular).expandOnto
            output.toList).toArray, true) ∧
          word = extraBits lengthRanges (lengthIndex length irregular) length ++
            wordBits distances (distanceSymbol distance) ++
            extraBits distanceRanges (distanceSymbol distance) distance := by
  apply ((decodes_number lengthRanges index position).bind fun length _ _ =>
    (readsDistances _).bind fun symbol _ _ =>
      (decodes_number distanceRanges symbol _).bind fun distance _ _ =>
        Decodes.pure (copy distance length output, true)).congr
  intro result word
  constructor
  · rintro ⟨length, _, _, ⟨lengthListed, rfl⟩, ⟨symbol, _, _, ⟨hasWord, rfl⟩,
        ⟨distance, _, _, ⟨distanceListed, rfl⟩, ⟨rfl, rfl⟩, rfl⟩, rfl⟩, rfl⟩
    obtain ⟨irregular, valid, rfl, rfl⟩ := listed_iff.mp ⟨lengthListed, distanceListed⟩
    exact ⟨length, distance, irregular, valid, rfl, hasWord,
      by rw [copy_eq_expandOnto valid], by simp⟩
  · rintro ⟨length, distance, irregular, valid, rfl, hasWord, rfl, rfl⟩
    obtain ⟨lengthListed, distanceListed⟩ := listed_iff.mpr ⟨irregular, valid, rfl, rfl⟩
    exact ⟨length, _, _, ⟨lengthListed, rfl⟩, ⟨distanceSymbol distance, _, _, ⟨hasWord, rfl⟩,
      ⟨distance, _, _, ⟨distanceListed, rfl⟩, ⟨by rw [copy_eq_expandOnto valid], rfl⟩, rfl⟩, rfl⟩,
      by simp⟩

/-- What is read and done after a symbol of the literal alphabet. -/
private def afterLiteral (distances : List Nat) (output : Bytes) (symbol : Nat) :
    Spelling (Bytes × Bool) := fun _ result word =>
  (symbol = endOfBlock ∧ result = (output, false) ∧ word = []) ∨
  (∃ byte : UInt8, symbol = byte.toNat ∧ result = (output.push byte, true) ∧ word = []) ∨
  ∃ length distance irregular, (Token.reference length distance irregular).Valid ∧
    symbol = firstLengthSymbol + lengthIndex length irregular ∧
    HasWord distances (distanceSymbol distance) ∧
    result = (((Token.reference length distance irregular).expandOnto output.toList).toArray,
      true) ∧
    word = extraBits lengthRanges (lengthIndex length irregular) length ++
      wordBits distances (distanceSymbol distance) ++
      extraBits distanceRanges (distanceSymbol distance) distance

include readsDistances in
private theorem decodes_afterLiteral (symbol position : Nat) (output : Bytes) :
    Decodes position (if symbol < endOfBlock then
        pure (output.push symbol.toUInt8, true)
      else if symbol = endOfBlock then
        pure (output, false)
      else do
        let length ← number lengthRanges (symbol - firstLengthSymbol)
        let distanceSymbol ← distanceCode.decode
        let distance ← number distanceRanges distanceSymbol
        return (copy distance length output, true))
      (afterLiteral distances output symbol) := by
  by_cases isLiteral : symbol < endOfBlock
  · rw [if_pos isLiteral]
    simp only [endOfBlock] at isLiteral
    have value : symbol.toUInt8.toNat = symbol := by
      rw [Nat.toUInt8, UInt8.toNat_ofNat', Nat.mod_eq_of_lt isLiteral]
    apply (Decodes.pure _).congr
    intro result word
    constructor
    · rintro ⟨rfl, rfl⟩
      exact .inr (.inl ⟨_, value.symm, rfl, rfl⟩)
    · rintro (⟨rfl, -⟩ | ⟨byte, rfl, rfl, rfl⟩ | ⟨length, distance, irregular, -, rfl, -⟩)
      · simp [endOfBlock] at isLiteral
      · simp [Nat.toUInt8]
      · simp only [firstLengthSymbol] at isLiteral
        omega
  rw [if_neg isLiteral]
  by_cases ends : symbol = endOfBlock
  · subst ends
    rw [if_pos rfl]
    apply (Decodes.pure _).congr
    intro result word
    constructor
    · rintro ⟨rfl, rfl⟩
      exact .inl ⟨rfl, rfl, rfl⟩
    · rintro (⟨-, rfl, rfl⟩ | ⟨byte, same, -⟩ | ⟨length, distance, irregular, -, same, -⟩)
      · exact ⟨rfl, rfl⟩
      · have small := byte.toNat_lt
        simp only [endOfBlock] at same
        omega
      · simp only [endOfBlock, firstLengthSymbol] at same
        omega
  · rw [if_neg ends]
    simp only [endOfBlock] at isLiteral ends
    obtain ⟨index, rfl⟩ : ∃ index, symbol = firstLengthSymbol + index :=
      ⟨symbol - firstLengthSymbol, by simp only [firstLengthSymbol]; omega⟩
    rw [Nat.add_sub_cancel_left]
    apply (decodes_reference readsDistances index position output).congr
    intro result word
    constructor
    · rintro ⟨length, distance, irregular, valid, rfl, hasWord, rfl, rfl⟩
      exact .inr (.inr ⟨length, distance, irregular, valid, rfl, hasWord, rfl, rfl⟩)
    · rintro (⟨same, -⟩ | ⟨byte, same, -⟩ |
        ⟨length, distance, irregular, valid, same, hasWord, rfl, rfl⟩)
      · exact absurd same ends
      · have small := byte.toNat_lt
        omega
      · exact ⟨length, distance, irregular, valid, Nat.add_left_cancel same, hasWord, rfl, rfl⟩

include readsLiterals readsDistances in
theorem decodes_step (position : Nat) (output : Bytes) :
    Decodes position (step literalCode distanceCode output)
      (stepSpelling literals distances output) := by
  apply ((readsLiterals position).bind fun symbol _ _ =>
    decodes_afterLiteral readsDistances symbol _ output).congr
  intro result word
  constructor
  · rintro ⟨symbol, _, _, ⟨hasWord, rfl⟩, ⟨rfl, rfl, rfl⟩ | ⟨byte, rfl, rfl, rfl⟩ |
      ⟨length, distance, irregular, valid, rfl, hasDistance, rfl, rfl⟩, rfl⟩
    · exact .inl ⟨rfl, hasWord, by rw [List.append_nil]⟩
    · exact .inr ⟨.literal byte, by rw [push_eq_expandOnto], ⟨trivial, hasWord⟩,
        by rw [List.append_nil, Token.bits]⟩
    · exact .inr ⟨.reference length distance irregular, rfl, ⟨valid, hasWord, hasDistance⟩,
        by simp [Token.bits]⟩
  · rintro (⟨rfl, hasWord, rfl⟩ | ⟨token, rfl, ⟨valid, expressible⟩, rfl⟩)
    · exact ⟨_, _, [], ⟨hasWord, rfl⟩, .inl ⟨rfl, rfl, rfl⟩, by rw [List.append_nil]⟩
    · cases token with
      | literal byte =>
          exact ⟨_, _, [], ⟨expressible, rfl⟩,
            .inr (.inl ⟨byte, rfl, by rw [push_eq_expandOnto], rfl⟩),
            by rw [List.append_nil, Token.bits]⟩
      | reference length distance irregular =>
          exact ⟨_, _, _, ⟨expressible.1, rfl⟩,
            .inr (.inr ⟨length, distance, irregular, valid, rfl, expressible.2, rfl, rfl⟩),
            by simp [Token.bits]⟩

/-! ## Runs of tokens -/

theorem tokens_of_end {output longer : Bytes} {cursor after : BitCursor}
    (run : step literalCode distanceCode output cursor = .ok (longer, false) after) :
    tokens literalCode distanceCode output cursor = .ok longer after := by
  rw [tokens]
  split
  · rename_i failed
    rw [run] at failed
    cases failed
  · rename_i ended
    rw [run] at ended
    cases ended
    rfl
  · rename_i more
    rw [run] at more
    cases more

theorem tokens_of_token {output longer : Bytes} {cursor after : BitCursor}
    (run : step literalCode distanceCode output cursor = .ok (longer, true) after) :
    tokens literalCode distanceCode output cursor =
      tokens literalCode distanceCode longer after := by
  conv => lhs; rw [tokens]
  split
  · rename_i failed
    rw [run] at failed
    cases failed
  · rename_i ended
    rw [run] at ended
    cases ended
  · rename_i more
    rw [run] at more
    cases more
    rfl

include readsLiterals readsDistances in
theorem decodes_tokens (position : Nat) (output : Bytes) :
    Decodes position (tokens literalCode distanceCode output) fun _ result word =>
      ∃ tokens, TokensValid literals distances tokens ∧
        result = (tokens.foldl Token.expandOnto output.toList).toArray ∧
        word = tokenBits literals distances tokens := by
  have reads := decodes_step readsLiterals readsDistances
  intro cursor after result place inside
  constructor
  · intro ended
    fun_induction tokens literalCode distanceCode output cursor generalizing position with
    | case1 => cases ended
    | case2 output cursor longer middle run =>
        cases ended
        obtain ⟨word, ⟨same, hasWord, rfl⟩ | ⟨token, same, -⟩, begins, rfl⟩ :=
          (reads position output _ _ _ place inside).mp run
        · cases same
          exact ⟨_, ⟨[], ⟨hasWord, List.forall_mem_nil _⟩, by simp, rfl⟩, begins, rfl⟩
        · cases same
    | case3 output cursor longer middle run ih =>
        obtain ⟨word, ⟨same, -⟩ | ⟨token, same, valid, rfl⟩, begins, rfl⟩ :=
          (reads position output _ _ _ place inside).mp run
        · cases same
        · cases same
          obtain ⟨word, ⟨tokens, ⟨hasWord, others⟩, rfl, rfl⟩, continues, rfl⟩ :=
            ih _ rfl (inside.advance begins) ended
          rw [BitCursor.rest_advance] at continues
          refine ⟨_, ⟨token :: tokens, ⟨hasWord, List.forall_mem_cons.mpr ⟨valid, others⟩⟩, rfl,
            rfl⟩, ?_, ?_⟩
          · rw [tokenBits_cons]
            exact append_prefix_iff.mpr ⟨begins, continues⟩
          · rw [BitCursor.advance_advance, tokenBits_cons, List.length_append]
  · rintro ⟨word, ⟨tokens, ⟨hasWord, valid⟩, rfl, rfl⟩, begins, rfl⟩
    induction tokens generalizing cursor output position with
    | nil =>
        refine tokens_of_end ((reads position output _ _ _ place inside).mpr ?_)
        exact ⟨_, .inl ⟨by simp, hasWord, rfl⟩, begins, rfl⟩
    | cons token tokens ih =>
        rw [List.forall_mem_cons] at valid
        rw [tokenBits_cons] at begins ⊢
        obtain ⟨begins, continues⟩ := append_prefix_iff.mp begins
        have run := (reads position output _ _ _ place inside).mpr
          ⟨_, .inr ⟨token, rfl, valid.1, rfl⟩, begins, rfl⟩
        rw [← BitCursor.rest_advance] at continues
        rw [tokens_of_token run, ih _ _ _ rfl (inside.advance begins) valid.2 continues,
          BitCursor.advance_advance, List.length_append]
        rfl

end Codes

end DeflateAtlas.Inflate
