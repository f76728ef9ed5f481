import DeflateAtlas.Proofs.Deflate.Spelling
import DeflateAtlas.Proofs.Huffman.Decoding

/-!
# Reading tokens

The ranges of lengths and of distances follow one another without a gap, so
every length and every distance has just one symbol, but for 258, of which the
token keeps the choice.  Reading a token is therefore the inverse of spelling
it.
-/

namespace DeflateAtlas.Deflate

open BitSource Huffman

/-! ## Ranges -/

/-- Ranges that follow one another from `start` up to `stop`. -/
def Tiles : (start stop : Nat) → List NumberRange → Prop
  | start, stop, [] => start = stop
  | start, stop, range :: ranges =>
      range.base = start ∧ Tiles (start + 2 ^ range.extraBits) stop ranges

instance decidableTiles (start stop : Nat) (ranges : List NumberRange) :
    Decidable (Tiles start stop ranges) :=
  match ranges with
  | [] => inferInstanceAs (Decidable (start = stop))
  | range :: ranges =>
      have := decidableTiles (start + 2 ^ range.extraBits) stop ranges
      inferInstanceAs (Decidable (range.base = start ∧ Tiles _ stop ranges))

theorem NumberRange.contains_iff {range : NumberRange} {number : Nat} :
    range.contains number = true ↔
      range.base ≤ number ∧ number < range.base + 2 ^ range.extraBits := by
  simp [NumberRange.contains]

/-- Each number between the ends lies in the range that is found for it. -/
theorem Tiles.rangeOf_spec {ranges : List NumberRange} {start stop number : Nat}
    (tiles : Tiles start stop ranges) (low : start ≤ number) (high : number < stop) :
    ∃ range, ranges[rangeOf ranges number]? = some range ∧ range.contains number = true := by
  induction ranges generalizing start with
  | nil =>
      have ends : start = stop := tiles
      omega
  | cons range ranges ih =>
      obtain ⟨rfl, rest⟩ := tiles
      by_cases here : range.contains number = true
      · exact ⟨range, by simp [rangeOf, List.findIdx_cons, here], here⟩
      · have beyond : range.base + 2 ^ range.extraBits ≤ number := by
          rw [NumberRange.contains_iff] at here
          omega
        obtain ⟨found, index, contains⟩ := ih rest beyond
        refine ⟨found, ?_, contains⟩
        simpa [rangeOf, List.findIdx_cons, here] using index

theorem Tiles.rangeOf_eq {ranges : List NumberRange} {start stop number index : Nat}
    {range : NumberRange} (tiles : Tiles start stop ranges)
    (listed : ranges[index]? = some range) (contains : range.contains number = true) :
    rangeOf ranges number = index ∧ start ≤ number ∧ number < stop := by
  induction ranges generalizing start index with
  | nil => simp at listed
  | cons first ranges ih =>
      obtain ⟨rfl, rest⟩ := tiles
      have bounded : ∀ {start : Nat} {ranges : List NumberRange}, Tiles start stop ranges →
          start ≤ stop := by
        intro start ranges tiles
        induction ranges generalizing start with
        | nil => exact Nat.le_of_eq tiles
        | cons range ranges ih => exact Nat.le_trans (Nat.le_add_right _ _) (ih tiles.2)
      cases index with
      | zero =>
          rw [List.getElem?_cons_zero, Option.some.injEq] at listed
          subst listed
          have inside := NumberRange.contains_iff.mp contains
          have ends := bounded rest
          refine ⟨?_, inside.1, by omega⟩
          simp [rangeOf, List.findIdx_cons, contains]
      | succ index =>
          obtain ⟨same, low, high⟩ := ih rest listed
          have outside : first.contains number = false := by
            rw [Bool.eq_false_iff, ne_eq, NumberRange.contains_iff]
            omega
          refine ⟨?_, Nat.le_trans (Nat.le_add_right _ _) low, high⟩
          rw [rangeOf] at same ⊢
          simp [List.findIdx_cons, outside, same]

theorem tiles_consecutive {start stop : Nat} {extraBits : List Nat}
    (ends : start + (extraBits.map (2 ^ ·)).sum = stop) :
    Tiles start stop (NumberRange.consecutive start extraBits) := by
  induction extraBits generalizing start with
  | nil => exact ends
  | cons bits others ih =>
      rw [List.map_cons, List.sum_cons, ← Nat.add_assoc] at ends
      exact ⟨rfl, ih ends⟩

theorem tiles_distanceRanges : Tiles 1 32769 distanceRanges.toList := by
  rw [distanceRanges_eq]
  exact tiles_consecutive (by decide)

theorem tiles_lengthRanges :
    Tiles minMatch (maxMatch + 1)
      (lengthRanges.toList.take (maxMatchSymbol - firstLengthSymbol)) := by
  rw [lengthRanges_eq, List.take_left']
  · exact tiles_consecutive (by decide)
  · rfl

/-- A length that deflate has lies in the range of its index, the last one unless it is shorter
than 258 or irregular. -/
theorem lengthIndex_spec {length : Nat} (irregular : Bool)
    (bounds : minMatch ≤ length ∧ length ≤ maxMatch) :
    ∃ range, lengthRanges[lengthIndex length irregular]? = some range ∧
      range.contains length = true := by
  unfold lengthIndex
  by_cases regular : length = maxMatch ∧ irregular = false
  · rw [if_pos regular, regular.1]
    exact ⟨⟨258, 0⟩, rfl, rfl⟩
  · obtain ⟨range, found, contains⟩ :=
      tiles_lengthRanges.rangeOf_spec bounds.1 (Nat.lt_succ_of_le bounds.2)
    rw [if_neg regular]
    refine ⟨range, ?_, contains⟩
    rw [List.getElem?_take] at found
    split at found
    · rwa [Array.getElem?_toList] at found
    · simp at found

/-- The index and the length say whether a length is irregular. -/
theorem lengthIndex_eq {length index : Nat} {range : NumberRange}
    (listed : lengthRanges[index]? = some range) (contains : range.contains length = true) :
    lengthIndex length
        (length = maxMatch ∧ firstLengthSymbol + index ≠ maxMatchSymbol : Bool) = index ∧
      minMatch ≤ length ∧ length ≤ maxMatch := by
  have inside : index < 29 := by
    obtain ⟨inside, _⟩ := Array.getElem?_eq_some_iff.mp listed
    exact inside
  by_cases last : index = 28
  · subst last
    have only : range = ⟨258, 0⟩ := (Option.some.inj listed).symm
    subst only
    have bounds : 258 ≤ length ∧ length < 258 + 2 ^ 0 := NumberRange.contains_iff.mp contains
    have whole : length = maxMatch := by
      simp only [maxMatch]
      omega
    subst whole
    exact ⟨rfl, by decide, by decide⟩
  · have earlier : (lengthRanges.toList.take (maxMatchSymbol - firstLengthSymbol))[index]? =
        some range := by
      have early : index < maxMatchSymbol - firstLengthSymbol := by
        simp only [maxMatchSymbol, firstLengthSymbol]
        omega
      rw [List.getElem?_take, if_pos early, Array.getElem?_toList, listed]
    obtain ⟨same, low, high⟩ := tiles_lengthRanges.rangeOf_eq earlier contains
    have other : firstLengthSymbol + index ≠ maxMatchSymbol := by
      simp only [firstLengthSymbol, maxMatchSymbol]
      omega
    refine ⟨?_, low, Nat.le_of_lt_succ high⟩
    unfold lengthIndex
    by_cases longest : length = maxMatch
    · simpa [longest, other] using by rwa [longest] at same
    · simpa [longest] using same

theorem irregular_eq {length : Nat} {irregular : Bool}
    (only : irregular = true → length = maxMatch) :
    (length = maxMatch ∧
      firstLengthSymbol + lengthIndex length irregular ≠ maxMatchSymbol : Bool) = irregular := by
  cases irregular with
  | false =>
      by_cases longest : length = maxMatch
      · simp [lengthIndex, longest, firstLengthSymbol, maxMatchSymbol]
      · simp [longest]
  | true =>
      rw [only rfl]
      decide

/-- The indices and the numbers that deflate can read are those of valid references. -/
theorem listed_iff {index symbol length distance : Nat} :
    ((∃ range, lengthRanges[index]? = some range ∧ range.contains length = true) ∧
        ∃ range, distanceRanges[symbol]? = some range ∧ range.contains distance = true) ↔
      ∃ irregular, (Token.reference length distance irregular).Valid ∧
        index = lengthIndex length irregular ∧ symbol = distanceSymbol distance := by
  constructor
  · rintro ⟨⟨range, listed, contains⟩, distanceRange, found, inside⟩
    obtain ⟨sameIndex, low, high⟩ := lengthIndex_eq listed contains
    rw [← Array.getElem?_toList] at found
    obtain ⟨sameSymbol, near, far⟩ := tiles_distanceRanges.rangeOf_eq found inside
    refine ⟨_, ⟨low, high, near, by omega, ?_⟩, sameIndex.symm, sameSymbol.symm⟩
    simp only [decide_eq_true_eq]
    exact And.left
  · rintro ⟨irregular, ⟨low, high, near, far, -⟩, rfl, rfl⟩
    obtain ⟨range, found, inside⟩ :=
      tiles_distanceRanges.rangeOf_spec near (Nat.lt_succ_of_le far)
    rw [Array.getElem?_toList] at found
    exact ⟨lengthIndex_spec irregular ⟨low, high⟩, range, found, inside⟩

theorem reads_readNumber {ranges : Array NumberRange}
    (narrow : ∀ range ∈ ranges.toList, range.extraBits ≤ 32) (index : Nat) (unknown : Failure) :
    Reads (readNumber ranges index unknown) fun _ number word =>
      (∃ range, ranges[index]? = some range ∧ range.contains number = true) ∧
        word = extraBits ranges index number := by
  unfold readNumber extraBits
  cases listed : ranges[index]? with
  | none =>
      apply (Reads.throw unknown).congr
      intro position number word
      simp
  | some range =>
      have member : range ∈ ranges.toList := Array.mem_toList_iff.mpr (Array.mem_of_getElem? listed)
      apply ((reads_getBits (narrow range member)).bind fun extra =>
        Reads.pure (range.base + extra)).congr
      intro position number word
      constructor
      · rintro ⟨extra, _, _, ⟨small, rfl⟩, ⟨rfl, rfl⟩, rfl⟩
        refine ⟨⟨range, rfl, ?_⟩, ?_⟩
        · rw [NumberRange.contains_iff]
          omega
        · simp
      · rintro ⟨⟨_, ⟨⟩, contains⟩, rfl⟩
        rw [NumberRange.contains_iff] at contains
        exact ⟨number - range.base, _, _, ⟨by omega, rfl⟩, ⟨by omega, rfl⟩, by simp⟩

theorem narrow_lengthRanges : ∀ range ∈ lengthRanges.toList, range.extraBits ≤ 32 := by
  decide

theorem narrow_distanceRanges : ∀ range ∈ distanceRanges.toList, range.extraBits ≤ 32 := by
  decide

/-! ## Tokens -/

namespace BlockCodes

/-- The codes of given lengths, whether or not they are accepted. -/
def build (literals distances : List Nat) : BlockCodes where
  literals := DecodingTable.build literals
  distances := DecodingTable.build distances

theorem ofLengths_eq_ok_iff {literals distances : List Nat} {allowIncomplete : Bool}
    {codes : BlockCodes} :
    ofLengths literals distances allowIncomplete = .ok codes ↔
      codes = build literals distances ∧ DecodingTable.Accepted literals allowIncomplete ∧
        DecodingTable.Accepted distances allowIncomplete := by
  simp only [ofLengths, bind, Except.bind]
  split
  · rename_i failure rejected
    constructor
    · rintro ⟨⟩
    · rintro ⟨-, accepted, -⟩
      rw [DecodingTable.ofLengths_eq_ok_iff.mpr ⟨rfl, accepted⟩] at rejected
      cases rejected
  · rename_i literalTable builtLiterals
    obtain ⟨rfl, acceptedLiterals⟩ := DecodingTable.ofLengths_eq_ok_iff.mp builtLiterals
    split
    · rename_i failure rejected
      constructor
      · rintro ⟨⟩
      · rintro ⟨-, -, accepted⟩
        rw [DecodingTable.ofLengths_eq_ok_iff.mpr ⟨rfl, accepted⟩] at rejected
        cases rejected
    · rename_i distanceTable builtDistances
      obtain ⟨rfl, acceptedDistances⟩ := DecodingTable.ofLengths_eq_ok_iff.mp builtDistances
      constructor
      · rintro ⟨⟩
        exact ⟨rfl, acceptedLiterals, acceptedDistances⟩
      · rintro ⟨rfl, -, -⟩
        rfl

theorem complete_fixedLiteralLengths : Complete fixedLiteralLengths := by
  constructor
  · intro length member
    simp only [fixedLiteralLengths, List.mem_append, List.mem_replicate] at member
    simp only [maxLength]
    omega
  · simp only [occupied, fixedLiteralLengths, List.map_append, List.map_replicate,
      List.sum_append, List.sum_replicate_nat]
    decide

theorem complete_fixedDistanceLengths : Complete fixedDistanceLengths := by
  constructor
  · intro length member
    simp only [fixedDistanceLengths, List.mem_replicate] at member
    simp only [maxLength]
    omega
  · simp only [occupied, fixedDistanceLengths, List.map_replicate, List.sum_replicate_nat]
    decide

/-- RFC 1951 lists the words of a fixed block (3.2.6): these are the first of 7, of 8 and of 9 bits. -/
example :
    ((firstWords (lengthCounts fixedLiteralLengths) 0).drop 6).take 3 =
      [0b0000000, 0b00110000, 0b110010000] := by
  decide +kernel

theorem fixed_eq : fixed = .ok (build fixedLiteralLengths fixedDistanceLengths) :=
  ofLengths_eq_ok_iff.mpr
    ⟨rfl, .inl complete_fixedLiteralLengths, .inl complete_fixedDistanceLengths⟩

end BlockCodes

section Codes

variable {literals distances : List Nat}

theorem reads_readReference (distancesFit : Fits distances) {lengthSymbol : Nat}
    (isLength : firstLengthSymbol ≤ lengthSymbol) :
    Reads (readReference (BlockCodes.build literals distances) lengthSymbol)
      fun _ token word => ∃ length distance irregular,
        token = .reference length distance irregular ∧ token.Valid ∧
          lengthSymbol = firstLengthSymbol + lengthIndex length irregular ∧
          HasWord distances (distanceSymbol distance) ∧
          word = extraBits lengthRanges (lengthIndex length irregular) length ++
            wordBits distances (distanceSymbol distance) ++
            extraBits distanceRanges (distanceSymbol distance) distance := by
  obtain ⟨index, rfl⟩ := Nat.exists_eq_add_of_le isLength
  rw [readReference, Nat.add_sub_cancel_left]
  apply ((reads_readNumber narrow_lengthRanges index _).bind fun length =>
    (DecodingTable.reads_decode distancesFit).bind fun symbol =>
      (reads_readNumber narrow_distanceRanges symbol _).bind fun distance =>
        Reads.pure _).congr
  intro position token word
  constructor
  · rintro ⟨length, _, _, ⟨lengthListed, rfl⟩, ⟨symbol, _, _, ⟨hasWord, rfl⟩,
        ⟨distance, _, _, ⟨distanceListed, rfl⟩, ⟨rfl, rfl⟩, rfl⟩, rfl⟩, rfl⟩
    obtain ⟨irregular, valid, rfl, rfl⟩ := listed_iff.mp ⟨lengthListed, distanceListed⟩
    rw [irregular_eq valid.2.2.2.2]
    exact ⟨length, distance, irregular, rfl, valid, rfl, hasWord, by simp⟩
  · rintro ⟨length, distance, irregular, rfl, valid, same, hasWord, rfl⟩
    obtain ⟨lengthListed, distanceListed⟩ :=
      listed_iff.mpr ⟨irregular, valid, Nat.add_left_cancel same, rfl⟩
    refine ⟨length, _, _, ⟨lengthListed, rfl⟩, ⟨distanceSymbol distance, _, _, ⟨hasWord, rfl⟩,
        ⟨distance, _, _, ⟨distanceListed, rfl⟩, ⟨?_, rfl⟩, rfl⟩, rfl⟩, ?_⟩
    · rw [Nat.add_left_cancel same, irregular_eq valid.2.2.2.2]
    · rw [Nat.add_left_cancel same]
      simp

/-- What is read after a symbol of the literal alphabet. -/
private def afterSymbol (distances : List Nat) (symbol : Nat) : Spelling (Option Token) :=
  fun _ result word =>
    match result with
    | none => symbol = endOfBlock ∧ word = []
    | some (.literal byte) => symbol = byte.toNat ∧ word = []
    | some (.reference length distance irregular) =>
        (Token.reference length distance irregular).Valid ∧
          symbol = firstLengthSymbol + lengthIndex length irregular ∧
          HasWord distances (distanceSymbol distance) ∧
          word = extraBits lengthRanges (lengthIndex length irregular) length ++
            wordBits distances (distanceSymbol distance) ++
            extraBits distanceRanges (distanceSymbol distance) distance

private theorem reads_literalSymbol {symbol : Nat} (isLiteral : symbol < endOfBlock) :
    Reads (pure (some (.literal symbol.toUInt8))) (afterSymbol distances symbol) := by
  simp only [endOfBlock] at isLiteral
  have value : symbol.toUInt8.toNat = symbol := by
    rw [Nat.toUInt8, UInt8.toNat_ofNat', Nat.mod_eq_of_lt isLiteral]
  apply (Reads.pure _).congr
  intro position result word
  rcases result with _ | ⟨byte⟩ | ⟨length, distance, irregular⟩
  · simp only [afterSymbol, endOfBlock, reduceCtorEq, false_and, false_iff]
    omega
  · simp only [afterSymbol, Option.some.injEq, Token.literal.injEq]
    refine and_congr_left fun _ => ⟨?_, ?_⟩
    · rintro rfl
      exact value.symm
    · rintro rfl
      simp [Nat.toUInt8]
  · simp only [afterSymbol, firstLengthSymbol, Option.some.injEq, reduceCtorEq, false_and,
      false_iff]
    omega

private theorem reads_endSymbol : Reads (pure none) (afterSymbol distances endOfBlock) := by
  apply (Reads.pure _).congr
  intro position result word
  rcases result with _ | ⟨byte⟩ | ⟨length, distance, irregular⟩
  · simp [afterSymbol]
  · have small := byte.toNat_lt
    simp only [afterSymbol, endOfBlock, reduceCtorEq, false_and, false_iff]
    omega
  · simp only [afterSymbol, endOfBlock, firstLengthSymbol, reduceCtorEq, false_and, false_iff]
    omega

private theorem reads_lengthSymbol (distancesFit : Fits distances) {symbol : Nat}
    (isLength : firstLengthSymbol ≤ symbol) :
    Reads (do return some (← readReference (BlockCodes.build literals distances) symbol))
      (afterSymbol distances symbol) := by
  apply ((reads_readReference distancesFit isLength).bind fun token =>
    Reads.pure (some token)).congr
  intro position result word
  simp only [firstLengthSymbol] at isLength
  rcases result with _ | ⟨byte⟩ | ⟨length, distance, irregular⟩
  · simp only [afterSymbol, endOfBlock, reduceCtorEq, false_and, and_false, exists_false,
      false_iff]
    omega
  · have small := byte.toNat_lt
    constructor
    · rintro ⟨_, _, _, ⟨length, distance, irregular, rfl, -⟩, ⟨same, -⟩, -⟩
      cases same
    · rintro ⟨same, -⟩
      omega
  · constructor
    · rintro ⟨_, _, _, ⟨_, _, _, rfl, valid, same, hasWord, rfl⟩, ⟨⟨⟩, rfl⟩, rfl⟩
      exact ⟨valid, same, hasWord, by rw [List.append_nil]⟩
    · rintro ⟨valid, same, hasWord, rfl⟩
      exact ⟨_, _, _, ⟨length, distance, irregular, rfl, valid, same, hasWord, rfl⟩,
        ⟨rfl, rfl⟩, by rw [List.append_nil]⟩

private theorem reads_afterSymbol (distancesFit : Fits distances) (symbol : Nat) :
    Reads (if symbol < endOfBlock then
        pure (some (.literal symbol.toUInt8))
      else if symbol = endOfBlock then
        pure none
      else do
        return some (← readReference (BlockCodes.build literals distances) symbol))
      (afterSymbol distances symbol) := by
  by_cases isLiteral : symbol < endOfBlock
  · rw [if_pos isLiteral]
    exact reads_literalSymbol isLiteral
  rw [if_neg isLiteral]
  by_cases ends : symbol = endOfBlock
  · subst ends
    rw [if_pos rfl]
    exact reads_endSymbol
  · rw [if_neg ends]
    apply reads_lengthSymbol distancesFit
    simp only [endOfBlock, firstLengthSymbol] at isLiteral ends ⊢
    omega

/-- Reading gives a token from its bits, or nothing from the word of the end of the block. -/
theorem reads_readToken (literalsFit : Fits literals) (distancesFit : Fits distances) :
    Reads (readToken (BlockCodes.build literals distances)) fun _ result word =>
      match result with
      | some token => (token.Valid ∧ token.Expressible literals distances) ∧
          word = token.bits literals distances
      | none => HasWord literals endOfBlock ∧ word = wordBits literals endOfBlock := by
  apply ((DecodingTable.reads_decode literalsFit).bind
    (reads_afterSymbol distancesFit)).congr
  intro position result word
  rcases result with _ | ⟨byte⟩ | ⟨length, distance, irregular⟩
  · constructor
    · rintro ⟨symbol, _, _, ⟨hasWord, rfl⟩, ⟨rfl, rfl⟩, rfl⟩
      exact ⟨hasWord, by rw [List.append_nil]⟩
    · rintro ⟨hasWord, rfl⟩
      exact ⟨_, _, _, ⟨hasWord, rfl⟩, ⟨rfl, rfl⟩, by rw [List.append_nil]⟩
  · constructor
    · rintro ⟨symbol, _, _, ⟨hasWord, rfl⟩, ⟨rfl, rfl⟩, rfl⟩
      exact ⟨⟨trivial, hasWord⟩, by rw [List.append_nil, Token.bits]⟩
    · rintro ⟨⟨-, hasWord⟩, rfl⟩
      exact ⟨_, _, _, ⟨hasWord, rfl⟩, ⟨rfl, rfl⟩, by rw [List.append_nil, Token.bits]⟩
  · constructor
    · rintro ⟨symbol, _, _, ⟨hasWord, rfl⟩, ⟨valid, rfl, others, rfl⟩, rfl⟩
      exact ⟨⟨valid, hasWord, others⟩, by simp [Token.bits]⟩
    · rintro ⟨⟨valid, hasWord, others⟩, rfl⟩
      exact ⟨_, _, _, ⟨hasWord, rfl⟩, ⟨valid, rfl, others, rfl⟩, by simp [Token.bits]⟩

end Codes

end DeflateAtlas.Deflate
