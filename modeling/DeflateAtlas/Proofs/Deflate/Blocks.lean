import DeflateAtlas.Proofs.Deflate.Tables

/-!
# Reading blocks

What an action on a transcript parses is what it reads from the source and
the elements it adds for it.  Reading a block gives the elements of a block
that can be written, from just its bits; and every such block is read from
its bits, whatever follows them.
-/

namespace DeflateAtlas.Deflate

open BitSource Huffman

variable {α β : Type}

/-- Which bits spell which value from a place in the data on, and what elements they are. -/
abbrev Parsing (α : Type) := (position : Nat) → α → List Element → List Bool → Prop

/-- An action takes the bits that spell a value, adds their elements, and ends well only there. -/
structure Parses (action : Transcript.Action α) (parsing : Parsing α) : Prop where
  complete : ∀ {source : BitSource} {value : α} {elements : List Element} {word : List Bool},
    source.WellFormed → parsing source.offset value elements word → word <+: source.bits →
    ∀ before, ∃ after,
      action ⟨source, before⟩ = .ok value ⟨after, before ++ elements.toArray⟩ ∧
        BitSource.Takes source after word.length
  sound : ∀ {source : BitSource} {before : Array Element} {value : α} {after : Transcript},
    source.WellFormed → action ⟨source, before⟩ = .ok value after →
    ∃ elements word, parsing source.offset value elements word ∧ word <+: source.bits ∧
      after.elements = before ++ elements.toArray ∧
      BitSource.Takes source after.source word.length

theorem reading_of_ok {action : BitSource.Action α} {source after : BitSource} {value : α}
    (run : action source = .ok value after) (elements : Array Element) :
    Transcript.reading action ⟨source, elements⟩ = .ok value ⟨after, elements⟩ := by
  simp only [Transcript.reading, run]

namespace Parses

variable {action : Transcript.Action α} {parsing : Parsing α}

theorem congr {other : Parsing α} (parses : Parses action parsing)
    (same : ∀ position value elements word,
      parsing position value elements word ↔ other position value elements word) :
    Parses action other where
  complete wellFormed spelled begins :=
    parses.complete wellFormed ((same _ _ _ _).mpr spelled) begins
  sound wellFormed ended := by
    obtain ⟨elements, word, spelled, rest⟩ := parses.sound wellFormed ended
    exact ⟨elements, word, (same _ _ _ _).mp spelled, rest⟩

protected theorem pure (result : α) :
    Parses (pure result) fun _ value elements word =>
      value = result ∧ elements = [] ∧ word = [] where
  complete := by
    rintro source value elements word wellFormed ⟨rfl, rfl, rfl⟩ - before
    exact ⟨source, by simp [pure, EStateM.pure], BitSource.Takes.refl wellFormed⟩
  sound := by
    rintro source before value after wellFormed ⟨⟩
    exact ⟨[], [], ⟨rfl, rfl, rfl⟩, List.nil_prefix, by simp, BitSource.Takes.refl wellFormed⟩

protected theorem throw (failure : Failure) :
    Parses (throw failure : Transcript.Action α) fun _ _ _ _ => False where
  complete _ spelled := spelled.elim
  sound := by
    rintro source before value after wellFormed ⟨⟩

protected theorem reading {action : BitSource.Action α} {spelling : Spelling α}
    (reads : Reads action spelling) :
    Parses (Transcript.reading action) fun position value elements word =>
      elements = [] ∧ spelling position value word where
  complete := by
    rintro source value elements word wellFormed ⟨rfl, spelled⟩ begins before
    obtain ⟨after, run, taken⟩ := reads.complete wellFormed spelled begins
    exact ⟨after, by simp [Transcript.reading, run], taken⟩
  sound := by
    intro source before value after wellFormed ended
    simp only [Transcript.reading] at ended
    split at ended
    · rename_i run
      cases ended
      obtain ⟨word, spelled, begins, taken⟩ := reads.sound wellFormed run
      exact ⟨[], word, ⟨rfl, spelled⟩, begins, by simp, taken⟩
    · cases ended

protected theorem emit (element : Element) :
    Parses (Transcript.emit element) fun _ _ elements word =>
      elements = [element] ∧ word = [] where
  complete := by
    rintro source value elements word wellFormed ⟨rfl, rfl⟩ - before
    exact ⟨source, by simp [Transcript.emit], BitSource.Takes.refl wellFormed⟩
  sound := by
    rintro source before value after wellFormed ⟨⟩
    exact ⟨[element], [], ⟨rfl, rfl⟩, List.nil_prefix, by simp, BitSource.Takes.refl wellFormed⟩

protected theorem bind {next : α → Transcript.Action β} {rest : α → Parsing β}
    (first : Parses action parsing) (second : ∀ value, Parses (next value) (rest value)) :
    Parses (action >>= next) fun position value elements word =>
      ∃ middle early late before after, parsing position middle early before ∧
        rest middle (position + before.length) value late after ∧
        elements = early ++ late ∧ word = before ++ after where
  complete := by
    rintro source value elements word wellFormed
      ⟨middle, early, late, before, after, spelled, others, rfl, rfl⟩ begins seen
    have starts := (List.prefix_append before after).trans begins
    obtain ⟨reached, run, taken⟩ := first.complete wellFormed spelled starts seen
    rw [← taken.offset] at others
    replace begins := taken.prefix_of_append begins
    obtain ⟨last, ended, moreTaken⟩ :=
      (second middle).complete taken.wellFormed others begins (seen ++ early.toArray)
    refine ⟨last, bind_eq_ok_iff.mpr ⟨middle, _, run, ?_⟩, ?_⟩
    · rw [ended]
      simp
    · rw [List.length_append]
      exact taken.trans moreTaken
  sound := by
    intro source before value after wellFormed ended
    obtain ⟨middle, ⟨reached, seen⟩, run, finished⟩ := bind_eq_ok_iff.mp ended
    obtain ⟨early, word, spelled, begins, added, taken⟩ := first.sound wellFormed run
    obtain ⟨late, more, others, continues, addedMore, moreTaken⟩ :=
      (second middle).sound taken.wellFormed finished
    rw [taken.offset] at others
    refine ⟨early ++ late, word ++ more,
      ⟨middle, early, late, word, more, spelled, others, rfl, rfl⟩, ?_, ?_, ?_⟩
    · exact (taken.append_prefix_iff begins).mpr continues
    · dsimp only at added
      rw [addedMore, added]
      simp
    · rw [List.length_append]
      exact taken.trans moreTaken

end Parses

/-! ## Stored bytes -/

theorem bits_getBytes_le {bytes : Bytes} {source : BitSource}
    (begins : bitsOfBytes bytes.toList <+: source.bits) : bytes.size * 8 ≤ source.remaining := by
  have short := begins.length_le
  rwa [length_bitsOfBytes, length_bits, Array.length_toList] at short

/-- The length of a stored block is checked against the rest of the data, which changes nothing
where the bytes are there. -/
theorem reads_getBytes_checked (length : Nat) :
    Reads (do
        let source ← get
        if source.remaining < length * 8 then
          throw .storedPastEnd
        else
          getBytes length)
      fun _ bytes word => bytes.size = length ∧ word = bitsOfBytes bytes.toList where
  complete := by
    rintro source bytes word wellFormed ⟨rfl, rfl⟩ begins
    obtain ⟨after, run, taken⟩ := (reads_getBytes bytes.size).complete wellFormed ⟨rfl, rfl⟩ begins
    refine ⟨after, bind_eq_ok_iff.mpr ⟨source, source, rfl, ?_⟩, taken⟩
    rw [if_neg (Nat.not_lt.mpr (bits_getBytes_le begins)), run]
  sound := by
    intro source after bytes wellFormed ended
    obtain ⟨_, _, ⟨⟩, checked⟩ := bind_eq_ok_iff.mp ended
    split at checked
    · cases checked
    · exact (reads_getBytes length).sound wellFormed checked

theorem reads_readStoredBytes :
    Reads readStoredBytes fun _ bytes word => bytes.size ≤ 0xffff ∧
      word = lowBits 16 bytes.size ++ lowBits 16 (0xffff - bytes.size) ++
        bitsOfBytes bytes.toList := by
  apply ((reads_getBits (by decide : 16 ≤ 32)).bind fun length =>
    (reads_getBits (by decide : 16 ≤ 32)).bind fun complement =>
      (Reads.throw _).ite (reads_getBytes_checked length)).congr
  intro position bytes word
  constructor
  · rintro ⟨length, _, _, ⟨small, rfl⟩, ⟨complement, _, _, ⟨-, rfl⟩, spelled, rfl⟩, rfl⟩
    by_cases mismatch : length + complement ≠ 0xffff
    · rw [if_pos mismatch] at spelled
      exact spelled.elim
    · rw [if_neg mismatch] at spelled
      obtain ⟨rfl, rfl⟩ := spelled
      have other : complement = 0xffff - bytes.size := by omega
      subst other
      exact ⟨by omega, by simp⟩
  · rintro ⟨small, rfl⟩
    refine ⟨bytes.size, _, _, ⟨by omega, rfl⟩,
      ⟨0xffff - bytes.size, _, bitsOfBytes bytes.toList, ⟨by omega, rfl⟩, ?_, rfl⟩, by simp⟩
    have matching : ¬ bytes.size + (0xffff - bytes.size) ≠ 0xffff := by omega
    rw [if_neg matching]
    exact ⟨rfl, rfl⟩

/-! ## Runs of tokens -/

theorem readTokens_of_error {codes : BlockCodes} {source after : BitSource} {failure : Failure}
    (run : readToken codes source = .error failure after) (before : Array Element) :
    readTokens codes ⟨source, before⟩ = .error failure ⟨after, before⟩ := by
  rw [readTokens]
  split
  · rename_i failed
    rw [run] at failed
    cases failed
    rfl
  · rename_i step
    rw [run] at step
    cases step
  · rename_i step
    rw [run] at step
    cases step

theorem readTokens_of_end {codes : BlockCodes} {source after : BitSource}
    (run : readToken codes source = .ok none after) (before : Array Element) :
    readTokens codes ⟨source, before⟩ = .ok () ⟨after, before.push .endOfBlock⟩ := by
  rw [readTokens]
  split
  · rename_i failed
    rw [run] at failed
    cases failed
  · rename_i step
    rw [run] at step
    cases step
    rfl
  · rename_i step
    rw [run] at step
    cases step

theorem readTokens_of_token {codes : BlockCodes} {source after : BitSource} {token : Token}
    (run : readToken codes source = .ok (some token) after) (before : Array Element) :
    readTokens codes ⟨source, before⟩ = readTokens codes ⟨after, before.push (.token token)⟩ := by
  conv => lhs; rw [readTokens]
  split
  · rename_i failed
    rw [run] at failed
    cases failed
  · rename_i step
    rw [run] at step
    cases step
  · rename_i step
    rw [run] at step
    cases step
    rfl

section Tokens

variable {literals distances : List Nat} (literalsFit : Fits literals)
  (distancesFit : Fits distances)
include literalsFit distancesFit

theorem parses_readTokens :
    Parses (readTokens (BlockCodes.build literals distances)) fun _ _ elements word =>
      ∃ tokens, TokensValid literals distances tokens ∧
        elements = tokens.map .token ++ [.endOfBlock] ∧
        word = tokenBits literals distances tokens where
  complete := by
    have reads := reads_readToken literalsFit distancesFit
    rintro source _ _ _ wellFormed ⟨tokens, ⟨ends, valid⟩, rfl, rfl⟩ begins before
    induction tokens generalizing source before with
    | nil =>
        obtain ⟨after, run, taken⟩ : ∃ after, readToken _ source = .ok none after ∧ _ :=
          reads.complete wellFormed ⟨ends, rfl⟩ begins
        refine ⟨after, ?_, taken⟩
        rw [readTokens_of_end run]
        simp
    | cons token tokens ih =>
        rw [List.forall_mem_cons] at valid
        rw [tokenBits_cons] at begins ⊢
        have starts := (List.prefix_append _ _).trans begins
        obtain ⟨middle, run, taken⟩ : ∃ middle,
            readToken _ source = .ok (some token) middle ∧ _ :=
          reads.complete wellFormed ⟨valid.1, rfl⟩ starts
        replace begins := taken.prefix_of_append begins
        obtain ⟨after, rest, moreTaken⟩ :=
          ih taken.wellFormed valid.2 begins (before.push (.token token))
        refine ⟨after, ?_, ?_⟩
        · rw [readTokens_of_token run, rest]
          simp
        · rw [List.length_append]
          exact taken.trans moreTaken
  sound := by
    have reads := reads_readToken literalsFit distancesFit
    intro source before _ after wellFormed ended
    generalize current : (⟨source, before⟩ : Transcript) = transcript at ended
    fun_induction readTokens (BlockCodes.build literals distances) transcript
      generalizing source before with
    | case1 => cases ended
    | case2 other seen middle step =>
        cases current
        cases ended
        obtain ⟨_, ⟨ends, rfl⟩, begins, taken⟩ := reads.sound wellFormed step
        exact ⟨[.endOfBlock], _, ⟨[], ⟨ends, by simp⟩, rfl, rfl⟩, begins, by simp, taken⟩
    | case3 other seen token middle step ih =>
        cases current
        obtain ⟨_, ⟨valid, rfl⟩, begins, taken⟩ := reads.sound wellFormed step
        obtain ⟨_, _, ⟨tokens, ⟨ends, others⟩, rfl, rfl⟩, continues, added, moreTaken⟩ :=
          ih taken.wellFormed rfl ended
        refine ⟨_, _, ⟨token :: tokens, ⟨ends, ?_⟩, rfl, rfl⟩, ?_, ?_, ?_⟩
        · rw [List.forall_mem_cons]
          exact ⟨valid, others⟩
        · rw [tokenBits_cons]
          exact (taken.append_prefix_iff begins).mpr continues
        · rw [added]
          simp
        · rw [tokenBits_cons, List.length_append]
          exact taken.trans moreTaken

end Tokens

/-! ## Contents -/

theorem hasWord_fixedLiterals {symbol : Nat} (inside : symbol < 288) :
    HasWord fixedLiteralLengths symbol := by
  have positive : ∀ length ∈ fixedLiteralLengths, 0 < length := by
    intro length member
    simp only [fixedLiteralLengths, List.mem_append, List.mem_replicate] at member
    omega
  have listed : symbol < fixedLiteralLengths.length := by
    simp only [fixedLiteralLengths, List.length_append, List.length_replicate]
    omega
  rw [HasWord, List.getD_eq_getElem?_getD, List.getElem?_eq_getElem listed, Option.getD_some]
  exact positive _ (List.getElem_mem listed)

theorem hasWord_fixedDistances {symbol : Nat} (inside : symbol < 32) :
    HasWord fixedDistanceLengths symbol := by
  rw [HasWord, fixedDistanceLengths, List.getD_eq_getElem?_getD, List.getElem?_replicate,
    if_pos inside]
  decide

theorem tokensValid_fixed {tokens : List Token} :
    TokensValid fixedLiteralLengths fixedDistanceLengths tokens ↔
      ∀ token ∈ tokens, token.Valid := by
  constructor
  · rintro ⟨-, valid⟩ token member
    exact (valid token member).1
  · intro valid
    refine ⟨hasWord_fixedLiterals (by decide), fun token member => ⟨valid token member, ?_⟩⟩
    cases token with
    | literal byte =>
        have small := byte.toNat_lt
        exact hasWord_fixedLiterals (by omega)
    | reference length distance irregular =>
        obtain ⟨low, high, near, far, -⟩ := valid _ member
        obtain ⟨_, lengthListed, -⟩ := lengthIndex_spec irregular ⟨low, high⟩
        obtain ⟨_, distanceListed, -⟩ :=
          tiles_distanceRanges.rangeOf_spec near (Nat.lt_succ_of_le far)
        obtain ⟨shortLength, -⟩ := Array.getElem?_eq_some_iff.mp lengthListed
        obtain ⟨shortDistance, -⟩ := List.getElem?_eq_some_iff.mp distanceListed
        have lengths : lengthRanges.size = 29 := rfl
        have distances : distanceRanges.toList.length = 30 := rfl
        constructor
        · apply hasWord_fixedLiterals
          simp only [firstLengthSymbol]
          omega
        · apply hasWord_fixedDistances
          rw [distanceSymbol]
          omega

theorem parses_afterTable (header : DynamicHeader) :
    Parses (do
        let codes ← Transcript.settle (BlockCodes.ofHeader header)
        Transcript.emit (.table header)
        readTokens codes)
      fun _ _ elements word => ∃ tokens, header.CodesValid ∧
        TokensValid header.literalLengths header.distanceLengths tokens ∧
        elements = .table header :: (tokens.map .token ++ [.endOfBlock]) ∧
        word = tokenBits header.literalLengths header.distanceLengths tokens := by
  cases built : BlockCodes.ofHeader header with
  | error failure =>
      apply (Parses.throw failure).congr
      intro position _ elements word
      constructor
      · exact False.elim
      · rintro ⟨_, codesValid, ⟨hasWord, -⟩, -⟩
        have accepted := DynamicHeader.ofHeader_eq_ok_iff.mpr ⟨rfl, hasWord, codesValid⟩
        rw [built] at accepted
        cases accepted
  | ok codes =>
      obtain ⟨rfl, -, codesValid⟩ := DynamicHeader.ofHeader_eq_ok_iff.mp built
      apply ((Parses.emit (.table header)).bind fun _ =>
        parses_readTokens codesValid.literals_fit codesValid.distances_fit).congr
      intro position _ elements word
      constructor
      · rintro ⟨_, _, _, _, _, ⟨rfl, rfl⟩, ⟨tokens, valid, rfl, rfl⟩, rfl, rfl⟩
        exact ⟨tokens, codesValid, valid, rfl, rfl⟩
      · rintro ⟨tokens, -, valid, rfl, rfl⟩
        exact ⟨(), _, _, _, _, ⟨rfl, rfl⟩, ⟨tokens, valid, rfl, rfl⟩, rfl, rfl⟩

theorem parses_readContent (kind : BlockKind) :
    Parses (readContent kind) fun position _ elements word =>
      ∃ content : Content, content.kind = kind ∧ content.Valid position ∧
        elements = content.elements ∧ word = content.bits position := by
  cases kind with
  | stored =>
      apply ((Parses.reading reads_getPadding).bind fun padding =>
        (Parses.reading reads_readStoredBytes).bind fun bytes =>
          Parses.emit (.stored padding bytes)).congr
      intro position _ elements word
      constructor
      · rintro ⟨padding, _, _, _, _, ⟨rfl, small, rfl⟩,
          ⟨bytes, _, _, _, _, ⟨rfl, short, rfl⟩, ⟨rfl, rfl⟩, rfl, rfl⟩, rfl, rfl⟩
        exact ⟨.stored padding bytes, rfl, ⟨small, short⟩, rfl, by simp [Content.bits]⟩
      · rintro ⟨content, same, valid, rfl, rfl⟩
        cases content with
        | stored padding bytes =>
            exact ⟨padding, [], _, _, _, ⟨rfl, valid.1, rfl⟩,
              ⟨bytes, [], _, _, _, ⟨rfl, valid.2, rfl⟩, ⟨rfl, rfl⟩, rfl, rfl⟩, rfl,
              by simp [Content.bits]⟩
        | fixed tokens => cases same
        | dynamic header tokens => cases same
  | fixed =>
      have codes : readContent .fixed =
          readTokens (BlockCodes.build fixedLiteralLengths fixedDistanceLengths) := by
        rw [readContent, BlockCodes.fixed_eq]
        rfl
      rw [codes]
      apply (parses_readTokens BlockCodes.complete_fixedLiteralLengths.fits
        BlockCodes.complete_fixedDistanceLengths.fits).congr
      intro position _ elements word
      simp only [tokensValid_fixed]
      constructor
      · rintro ⟨tokens, valid, rfl, rfl⟩
        exact ⟨.fixed tokens, rfl, valid, rfl, rfl⟩
      · rintro ⟨content, same, valid, rfl, rfl⟩
        cases content with
        | stored padding bytes => cases same
        | fixed tokens => exact ⟨tokens, valid, rfl, rfl⟩
        | dynamic header tokens => cases same
  | dynamic =>
      apply ((Parses.reading DynamicHeader.reads_read).bind parses_afterTable).congr
      intro position _ elements word
      constructor
      · rintro ⟨header, _, _, _, _, ⟨rfl, valid, rfl⟩, ⟨tokens, codesValid, tokensValid, rfl, rfl⟩,
          rfl, rfl⟩
        exact ⟨.dynamic header tokens, rfl, ⟨valid, codesValid, tokensValid⟩, rfl, rfl⟩
      · rintro ⟨content, same, valid, rfl, rfl⟩
        cases content with
        | stored padding bytes => cases same
        | fixed tokens => cases same
        | dynamic header tokens =>
            exact ⟨header, [], _, _, _, ⟨rfl, valid.1, rfl⟩,
              ⟨tokens, valid.2.1, valid.2.2, rfl, rfl⟩, rfl, rfl⟩

/-! ## Whole blocks -/

/-- The final block owns the bits up to the next byte boundary. -/
theorem parses_ending (last : Bool) :
    Parses (do
        if last then
          let padding ← Transcript.reading getPadding
          Transcript.emit (.finalPadding padding)
        return last)
      fun position value elements word => value = last ∧ ∃ finalPadding : Option UInt8,
        finalPadding.isSome = last ∧ FinalValid position finalPadding ∧
        elements = (finalPadding.map Element.finalPadding).toList ∧
        word = finalBits position finalPadding := by
  cases last with
  | false =>
      apply (Parses.pure false).congr
      intro position value elements word
      constructor
      · rintro ⟨rfl, rfl, rfl⟩
        exact ⟨rfl, none, rfl, by simp [FinalValid], rfl, rfl⟩
      · rintro ⟨rfl, finalPadding, none, -, rfl, rfl⟩
        cases finalPadding with
        | none => exact ⟨rfl, rfl, rfl⟩
        | some padding => cases none
  | true =>
      apply ((Parses.reading reads_getPadding).bind fun padding =>
        (Parses.emit (.finalPadding padding)).bind fun _ => Parses.pure true).congr
      intro position value elements word
      constructor
      · rintro ⟨padding, _, _, _, _, ⟨rfl, small, rfl⟩,
          ⟨_, _, _, _, _, ⟨rfl, rfl⟩, ⟨rfl, rfl, rfl⟩, rfl, rfl⟩, rfl, rfl⟩
        refine ⟨rfl, some padding, rfl, ?_, by simp, by simp [finalBits]⟩
        rintro other same
        cases same
        exact small
      · rintro ⟨rfl, finalPadding, some, valid, rfl, rfl⟩
        cases finalPadding with
        | none => cases some
        | some padding =>
            exact ⟨padding, [], _, _, [], ⟨rfl, valid padding rfl, rfl⟩,
              ⟨(), _, [], [], [], ⟨rfl, rfl⟩, ⟨rfl, rfl, rfl⟩, rfl, rfl⟩, rfl,
              by simp [finalBits]⟩

theorem parses_afterHeader (last : Bool) (number : Nat) :
    Parses (match BlockKind.ofNumber? number with
      | none => throw .invalidBlockType
      | some kind => do
          Transcript.emit (.header kind last)
          readContent kind
          if last then
            let padding ← Transcript.reading getPadding
            Transcript.emit (.finalPadding padding)
          return last)
      fun position value elements word => value = last ∧ ∃ (content : Content)
        (finalPadding : Option UInt8), content.kind.number = number ∧
        finalPadding.isSome = last ∧ content.Valid position ∧
        FinalValid (position + (content.bits position).length) finalPadding ∧
        elements = .header content.kind last :: content.elements ++
          (finalPadding.map Element.finalPadding).toList ∧
        word = content.bits position ++
          finalBits (position + (content.bits position).length) finalPadding := by
  cases known : BlockKind.ofNumber? number with
  | none =>
      apply (Parses.throw _).congr
      intro position value elements word
      constructor
      · exact False.elim
      · rintro ⟨-, content, _, same, -⟩
        rw [BlockKind.ofNumber?_eq_some_iff.mpr same] at known
        cases known
  | some kind =>
      have stands := BlockKind.ofNumber?_eq_some_iff.mp known
      apply ((Parses.emit (.header kind last)).bind fun _ =>
        (parses_readContent kind).bind fun _ => parses_ending last).congr
      intro position value elements word
      constructor
      · rintro ⟨_, _, _, _, _, ⟨rfl, rfl⟩, ⟨_, _, _, _, _, ⟨content, rfl, valid, rfl, rfl⟩,
          ⟨rfl, finalPadding, isLast, finalValid, rfl, rfl⟩, rfl, rfl⟩, rfl, rfl⟩
        exact ⟨rfl, content, finalPadding, stands, isLast, valid, finalValid, rfl, rfl⟩
      · rintro ⟨rfl, content, finalPadding, same, isLast, valid, finalValid, rfl, rfl⟩
        have sameKind : content.kind = kind := by
          have found := BlockKind.ofNumber?_eq_some_iff.mpr same
          rw [known] at found
          exact (Option.some.inj found).symm
        subst sameKind
        exact ⟨(), _, _, [], _, ⟨rfl, rfl⟩, ⟨(), _, _, _, _, ⟨content, rfl, valid, rfl, rfl⟩,
          ⟨rfl, finalPadding, isLast, finalValid, rfl, rfl⟩, rfl, rfl⟩, rfl, rfl⟩

theorem BlockKind.number_lt (kind : BlockKind) : kind.number < 2 ^ 2 := by
  cases kind <;> decide

/-- Reading a block gives one that can be written, from its bits. -/
theorem parses_readBlock :
    Parses readBlock fun position last elements word =>
      ∃ block : Block, block.isFinal = last ∧ block.Valid position ∧
        elements = block.elements ∧ word = block.bits position := by
  apply ((Parses.reading reads_getBit).bind fun last =>
    (Parses.reading (reads_getBits (by decide : 2 ≤ 32))).bind
      (parses_afterHeader last)).congr
  intro position value elements word
  have opened (block : Block) :
      position + [block.isFinal].length + (lowBits 2 block.content.kind.number).length =
        position + 3 := by
    rw [length_lowBits]
    rfl
  have openLength (block : Block) : position + 3 + (block.content.bits (position + 3)).length =
      position + (block.openBits position).length := by
    simp only [Block.openBits, List.cons_append, List.length_cons, List.length_append,
      length_lowBits]
    omega
  constructor
  · rintro ⟨last, _, _, _, _, ⟨rfl, rfl⟩, ⟨number, _, _, _, _, ⟨rfl, -, rfl⟩,
      ⟨rfl, content, finalPadding, rfl, isLast, valid, finalValid, rfl, rfl⟩, rfl, rfl⟩, rfl, rfl⟩
    subst isLast
    have start : position + [finalPadding.isSome].length +
        (lowBits 2 content.kind.number).length = position + 3 := opened ⟨content, finalPadding⟩
    have stop := openLength ⟨content, finalPadding⟩
    dsimp only at stop
    rw [start] at valid finalValid ⊢
    rw [stop] at finalValid ⊢
    refine ⟨⟨content, finalPadding⟩, rfl, ⟨valid, finalValid⟩, rfl, ?_⟩
    simp [Block.bits, Block.openBits, Block.isFinal]
  · rintro ⟨block, rfl, ⟨valid, finalValid⟩, rfl, rfl⟩
    refine ⟨block.isFinal, [], _, _, _, ⟨rfl, rfl⟩, ⟨block.content.kind.number, [], _, _, _,
      ⟨rfl, block.content.kind.number_lt, rfl⟩, ⟨rfl, block.content, block.finalPadding, rfl, rfl,
        ?_, ?_, rfl, rfl⟩, rfl, rfl⟩, rfl, ?_⟩
    · rwa [opened]
    · rwa [opened, openLength]
    · rw [opened, openLength]
      simp [Block.bits, Block.openBits]

end DeflateAtlas.Deflate
