import DeflateAtlas.Proofs.Deflate.Blocks
import DeflateAtlas.Proofs.Deflate.CodeLengths
import DeflateAtlas.Proofs.Huffman.Guarded

/-!
# Parsing with nothing taken for granted

The parser with demands relies on nothing that it has not tested: symbols have their
places in the tables of lengths and distances, the code lengths that were read reach
beyond the end of the block and beyond the split between the two codes, counts fit a
byte, the fixed codes can be built, and every pass of a loop takes bits.  Branches that
no data leads to fail like demands.  From a well-formed source all demands are met, the
parse ends well or fails in expected ways only, and however it ends, the elements it
has seen are those that a block can have.
-/

namespace DeflateAtlas

open Deflate Huffman

/-! ## What a parse sees -/

/-- An element that a block can have. -/
def Deflate.Element.Valid : Element → Prop
  | .stored _ bytes => bytes.size ≤ 65535
  | .table sent => sent.Valid
  | .token spelled => spelled.Valid
  | .header .. | .endOfBlock | .finalPadding _ => True

namespace BitSource

/-- Where a reader ends well, it gives what its spelling allows. -/
theorem SafeFrom.sharpen {α : Type} {before after : BitSource → Prop} {guarded action : Action α}
    {result sharper : α → Prop} {spelling : Spelling α}
    (safe : SafeFrom before after guarded action result)
    (formed : ∀ source, before source → source.WellFormed) (reads : Reads action spelling)
    (implies : ∀ position value word, spelling position value word → sharper value) :
    SafeFrom before after guarded action sharper := by
  refine Guards.intro (fun source => safe.eq) (fun source value reached holds ended => ?_)
    fun source failure reached => safe.of_error
  obtain ⟨word, spelled, -, -⟩ := reads.sound (formed source holds) ended
  exact ⟨implies _ _ _ spelled, (safe.of_ok holds ended).2⟩

end BitSource

namespace Guarded

open BitSource (Action Aligned Safe SafeFrom)

variable (fault : Failure)

/-! ## Reading with demands -/

/-- Read the count of an entry that stands for at least `least` code lengths. -/
def readRepeat (width least : Nat) (entry : Nat → LengthEntry) : Action LengthEntry := do
  let extra ← getByteSized fault width
  demand fault (least + extra < 256)
  return entry (least + extra)

/-- Read the entry that a symbol of the code length alphabet begins; it has no other symbols. -/
def readEntryOf (symbol : Nat) : Action LengthEntry :=
  if symbol ≤ 15 then
    pure (.single symbol)
  else if symbol = 16 then
    readRepeat fault 2 3 .repeatPrevious
  else if symbol = 17 then
    readRepeat fault 3 3 .fewZeros
  else if symbol = 18 then
    readRepeat fault 7 11 .manyZeros
  else
    throw fault

/-- Read lengths of three bits each. -/
def readSentLengths : (number : Nat) → Action (List Nat)
  | 0 => pure []
  | number + 1 => do
      let length ← getByteSized fault 3
      let lengths ← readSentLengths number
      return length :: lengths

/-- Read the entry that comes after `covered` code lengths. -/
def readEntry (code : DecodingTable) (covered : Nat) : Action LengthEntry := do
  let symbol ← decode fault code
  if symbol = 16 ∧ covered = 0 then
    throw .repeatWithoutPrevious
  else
    readEntryOf fault symbol

/-- Read entries until they cover `total` code lengths, as long as each takes bits. -/
def readEntriesOnto (code : DecodingTable) (total covered : Nat) (entries : List LengthEntry) :
    Action (List LengthEntry) := fun source =>
  if covered < total then
    match readEntry fault code covered source with
    | .error failure after => .error failure after
    | .ok entry after =>
        if after.remaining < source.remaining then
          readEntriesOnto code total (covered + entry.count) (entry :: entries) after
        else
          .error fault after
  else if covered = total then
    .ok entries.reverse source
  else
    .error .codeLengthOverrun source
termination_by source => source.remaining

/-- Read a table; the lengths of the code length code are entered at their symbols. -/
def readHeader : Action DynamicHeader := do
  let literalCount := (← getBits fault 5) + 257
  let distanceCount := (← getBits fault 5) + 1
  let sentCount := (← getBits fault 4) + 4
  if 286 < literalCount ∨ 30 < distanceCount then
    throw .tooManyCodes
  else
    demand fault (sentCount ≤ codeLengthOrder.length)
    demand fault (∀ symbol ∈ codeLengthOrder.take sentCount, symbol < 19)
    let sentLengths ← readSentLengths fault sentCount
    match ofLengths fault (codeLengthLengths sentLengths) false with
    | .error failure => throw failure
    | .ok code =>
        let entries ← readEntriesOnto fault code (literalCount + distanceCount) 0 []
        return { literalCount, distanceCount, sentLengths, entries }

/-- The codes of given lengths. -/
def codesOfLengths (literals distances : List Nat) (allowIncomplete : Bool) :
    Except Failure BlockCodes := do
  let literals ← ofLengths fault literals allowIncomplete
  let distances ← ofLengths fault distances allowIncomplete
  return { literals, distances }

/-- The codes of every fixed block, which there always are. -/
def fixedCodes : Except Failure BlockCodes :=
  (codesOfLengths fault fixedLiteralLengths fixedDistanceLengths false).mapError fun _ => fault

/-- The codes that a dynamic block sends; its lengths are split where those of the distances
begin. -/
def codesOfHeader (header : DynamicHeader) : Except Failure BlockCodes := do
  demand fault (header.literalCount ≤ (expandEntries header.entries).length)
  demand fault (endOfBlock < header.literalLengths.length)
  if header.literalLengths.getD endOfBlock 0 = 0 then
    throw .missingEndOfBlock
  else
    codesOfLengths fault header.literalLengths header.distanceLengths true

/-- Read the number that one of the first `limit` symbols of an alphabet stands for. -/
def readNumber (ranges : Array NumberRange) (limit index : Nat) (unknown : Failure) :
    Action Nat :=
  if limit ≤ index then
    throw unknown
  else do
    demand fault (index < ranges.size)
    let range := ranges.getD index ⟨0, 0⟩
    let extra ← getBits fault range.extraBits
    return range.base + extra

/-- Read the rest of a reference whose length symbol has been read. -/
def readReference (codes : BlockCodes) (lengthSymbol : Nat) : Action Token := do
  demand fault (firstLengthSymbol ≤ lengthSymbol)
  let length ← readNumber fault lengthRanges 29 (lengthSymbol - firstLengthSymbol)
    .invalidLengthCode
  let distanceSymbol ← decode fault codes.distances
  let distance ← readNumber fault distanceRanges 30 distanceSymbol .invalidDistanceCode
  return .reference length distance (length = maxMatch ∧ lengthSymbol ≠ maxMatchSymbol)

/-- Read a token, or nothing at the end of the block. -/
def readToken (codes : BlockCodes) : Action (Option Token) := do
  let symbol ← decode fault codes.literals
  if symbol < endOfBlock then
    demand fault (symbol < 256)
    return some (.literal symbol.toUInt8)
  else if symbol = endOfBlock then
    return none
  else
    return some (← readReference fault codes symbol)

/-- Read the length of a stored block, its complement, and the bytes. -/
def readStoredBytes : Action Bytes := do
  let length ← getBits fault 16
  let complement ← getBits fault 16
  if length + complement ≠ 0xffff then
    throw .storedLengthMismatch
  else
    let left ← remaining fault
    if left < length * 8 then
      throw .storedPastEnd
    else
      getBytes fault length

/-! ## Parsing with demands -/

/-- Read tokens up to the end of the block, as long as each takes bits. -/
def readTokens (codes : BlockCodes) : Transcript.Action Unit := fun ⟨source, elements⟩ =>
  match readToken fault codes source with
  | .error failure after => .error failure ⟨after, elements⟩
  | .ok none after => .ok () ⟨after, elements.push .endOfBlock⟩
  | .ok (some token) after =>
      if after.remaining < source.remaining then
        readTokens codes ⟨after, elements.push (.token token)⟩
      else
        .error fault ⟨after, elements⟩
termination_by transcript => transcript.source.remaining

/-- Read what follows the header of a block. -/
def readContent : BlockKind → Transcript.Action Unit
  | .stored => do
      let padding ← Transcript.reading (getPadding fault)
      let bytes ← Transcript.reading (readStoredBytes fault)
      Transcript.emit (.stored padding bytes)
  | .fixed => do
      let codes ← Transcript.settle (fixedCodes fault)
      readTokens fault codes
  | .dynamic => do
      let header ← Transcript.reading (readHeader fault)
      let codes ← Transcript.settle (codesOfHeader fault header)
      Transcript.emit (.table header)
      readTokens fault codes

/-- Read the rest of a block of which the first bit has been read. -/
def readBlockAfter (last : Bool) : Transcript.Action Bool := do
  let number ← Transcript.reading (getBits fault 2)
  match BlockKind.ofNumber? number with
  | none => throw .invalidBlockType
  | some kind =>
      Transcript.emit (.header kind last)
      readContent fault kind
      if last then
        let padding ← Transcript.reading (getPadding fault)
        Transcript.emit (.finalPadding padding)
      return last

/-- Read a block and say whether it is the final one. -/
def readBlock : Transcript.Action Bool := do
  let last ← Transcript.reading (getBit fault)
  readBlockAfter fault last

/-- Read a block and say where it lies. -/
def readSpan : Transcript.Action BlockSpan := do
  let start ← Transcript.reading (offset fault)
  let last ← readBlock fault
  let stop ← Transcript.reading (offset fault)
  demand fault (start ≤ stop)
  return ⟨⟨start, stop - start⟩, last⟩

/-- Go on with a parse at the start of a block, as long as each block takes bits. -/
def parseBlocks (blocks : Array BlockSpan) (before : Transcript) : Parse :=
  match Transcript.reading (remaining fault) before with
  | .error failure after => ⟨.error failure, blocks, after⟩
  | .ok left _ =>
      if left < 8 then
        ⟨.ok (), blocks, before⟩
      else
        match readSpan fault before with
        | .error failure after => ⟨.error failure, blocks, after⟩
        | .ok span after =>
            if span.last then
              ⟨.ok (), blocks.push span, after⟩
            else if after.remaining < before.remaining then
              parseBlocks (blocks.push span) after
            else
              ⟨.error fault, blocks, after⟩
termination_by before.remaining

/-- Take deflate data apart, from the place of a source on. -/
def parse (source : BitSource) : Parse :=
  parseBlocks fault #[] ⟨source, #[]⟩

/-! ## Tables -/

variable {fault}

theorem safe_readRepeat {width least : Nat} (narrow : width ≤ 8) (fits : least + 2 ^ width ≤ 256)
    (entry : Nat → LengthEntry) :
    Safe (readRepeat fault width least entry)
      (do
        let extra ← BitSource.getBits width
        return entry (least + extra))
      fun _ => True :=
  (safe_getByteSized narrow).bind fun extra small =>
    Guards.demand (by omega) (Guards.pure trivial)

/-- The code length alphabet has nineteen symbols. -/
theorem safe_readEntryOf {symbol : Nat} (known : symbol < 19) :
    Safe (readEntryOf fault symbol)
      (LengthEntry.read symbol) fun _ => True := by
  unfold readEntryOf LengthEntry.read
  refine Guards.ite (fun _ => Guards.pure trivial) fun high => ?_
  refine Guards.ite (fun _ => safe_readRepeat (by decide) (by decide) _) fun notPrevious => ?_
  refine Guards.ite (fun _ => safe_readRepeat (by decide) (by decide) _) fun notFew => ?_
  refine Guards.ite (fun _ => safe_readRepeat (by decide) (by decide) _) fun notMany => ?_
  omega

theorem safe_readSentLengths (number : Nat) :
    Safe (readSentLengths fault number)
      (DynamicHeader.readSentLengths number) fun _ => True := by
  induction number with
  | zero => exact Guards.pure trivial
  | succ number ih =>
      exact (safe_getByteSized (by decide)).bind fun _ _ => ih.bind fun _ _ => Guards.pure trivial

section Entries

variable {lengths : List Nat} (fits : Fits lengths) (known : lengths.length ≤ 19)
include fits known

theorem safe_readEntry (covered : Nat) :
    Safe (readEntry fault (DecodingTable.build lengths) covered)
      (DynamicHeader.readEntry (DecodingTable.build lengths) covered) fun _ => True := by
  refine (safe_decode fits).bind fun symbol hasWord => ?_
  refine Guards.ite (fun _ => Guards.throw fun _ _ => by decide) fun _ => safe_readEntryOf ?_
  obtain ⟨length, -, listed⟩ := hasWord_iff.mp hasWord
  obtain ⟨inside, -⟩ := List.getElem?_eq_some_iff.mp listed
  omega

theorem safe_readEntriesOnto (total covered : Nat) (entries : List LengthEntry) :
    Safe (readEntriesOnto fault (DecodingTable.build lengths) total covered entries)
      (DynamicHeader.readEntriesOnto (DecodingTable.build lengths) total covered entries)
      fun _ => True := by
  intro source wellFormed
  fun_induction DynamicHeader.readEntriesOnto (DecodingTable.build lengths) total covered entries
    source with
  | case1 covered entries source inside failure after step =>
      have entry := @safe_readEntry fault lengths fits known covered
      rw [readEntriesOnto, if_pos inside, entry.eq wellFormed, step]
      exact ⟨rfl, entry.of_error wellFormed step⟩
  | case2 covered entries source inside entry middle step ih =>
      have read := @safe_readEntry fault lengths fits known covered
      have progress := DynamicHeader.consumes_readEntry _ covered step
      rw [readEntriesOnto, if_pos inside, read.eq wellFormed, step]
      dsimp only
      rw [if_pos progress]
      exact ih (read.of_ok wellFormed step).2
  | case3 entries source all =>
      rw [readEntriesOnto, if_neg all, if_pos rfl]
      exact ⟨rfl, trivial, wellFormed⟩
  | case4 covered entries source all beyond =>
      have expected : Failure.codeLengthOverrun.Expected := by decide
      rw [readEntriesOnto, if_neg all, if_neg beyond]
      exact ⟨rfl, expected⟩

end Entries

theorem codeLengthOrder_lt : ∀ symbol ∈ codeLengthOrder, symbol < 19 := by
  decide

theorem safe_readHeader :
    Safe (readHeader fault) DynamicHeader.read
      DynamicHeader.Valid := by
  have composed : Safe (readHeader fault)
      DynamicHeader.read fun _ => True := by
    refine (safe_getBits (by decide)).bind fun literals _ => ?_
    refine (safe_getBits (by decide)).bind fun distances _ => ?_
    refine (safe_getBits (by decide)).bind fun sent few => ?_
    refine Guards.ite (fun _ => Guards.throw fun _ _ => by decide) fun _ => ?_
    have ordered : ∀ symbol ∈ codeLengthOrder.take (sent + 4), symbol < 19 := fun symbol member =>
      codeLengthOrder_lt symbol (List.mem_of_mem_take member)
    refine Guards.demand (Nat.add_le_add_right (Nat.le_of_lt_succ few) 4) ?_
    refine Guards.demand ordered ?_
    refine (safe_readSentLengths _).bind fun sentLengths _ => ?_
    rw [ofLengths_eq]
    cases built : DecodingTable.ofLengths (codeLengthLengths sentLengths) false with
    | error failure => exact Guards.throw fun _ _ => expected_ofLengths built
    | ok code =>
        obtain ⟨rfl, accepted⟩ := DecodingTable.ofLengths_eq_ok_iff.mp built
        exact (safe_readEntriesOnto accepted.fits (by simp [codeLengthLengths]) _ _ _).bind
          fun _ _ => Guards.pure trivial
  exact composed.sharpen (fun _ => id) DynamicHeader.reads_read fun _ _ _ => And.left

theorem codesOfLengths_eq (literals distances : List Nat) (allowIncomplete : Bool) :
    codesOfLengths fault literals distances allowIncomplete =
      BlockCodes.ofLengths literals distances allowIncomplete := by
  rw [codesOfLengths, BlockCodes.ofLengths, ofLengths_eq, ofLengths_eq]

theorem expected_codesOfLengths {literals distances : List Nat} {allowIncomplete : Bool}
    {failure : Failure}
    (rejected : BlockCodes.ofLengths literals distances allowIncomplete = .error failure) :
    failure.Expected := by
  simp only [BlockCodes.ofLengths, bind, Except.bind] at rejected
  split at rejected
  · rename_i failed
    cases rejected
    exact expected_ofLengths failed
  split at rejected
  · rename_i failed
    cases rejected
    exact expected_ofLengths failed
  · cases rejected

/-- The fixed codes are complete, so they can be built. -/
theorem fixedCodes_eq : fixedCodes fault = BlockCodes.fixed := by
  rw [fixedCodes, codesOfLengths_eq, ← BlockCodes.fixed, BlockCodes.fixed_eq]
  rfl

/-- The lengths that were read suffice for the literal code, which has an end of the block. -/
theorem codesOfHeader_eq {header : DynamicHeader} (valid : header.Valid) :
    codesOfHeader fault header = BlockCodes.ofHeader header := by
  have covers := valid.covers
  have most := valid.literals.1
  have split : header.literalCount ≤ (expandEntries header.entries).length := by
    rw [length_expandEntries, covers]
    exact Nat.le_add_right _ _
  have ends : endOfBlock < header.literalLengths.length := by
    rw [DynamicHeader.literalLengths, List.length_take, Nat.min_eq_left split]
    exact most
  rw [codesOfHeader, demand_of split, demand_of ends, pure_bind, pure_bind, codesOfLengths_eq]
  rfl

theorem expected_codesOfHeader {header : DynamicHeader} {failure : Failure}
    (rejected : BlockCodes.ofHeader header = .error failure) : failure.Expected := by
  unfold BlockCodes.ofHeader at rejected
  split at rejected
  · cases rejected
    decide
  · exact expected_codesOfLengths rejected

/-! ## Tokens -/

/-- Every symbol below the limit has its place in the table. -/
theorem safe_readNumber {ranges : Array NumberRange} {limit : Nat} (size : ranges.size = limit)
    (narrow : ∀ range ∈ ranges.toList, range.extraBits ≤ 32) (index : Nat) {unknown : Failure}
    (expected : unknown.Expected) :
    Safe (readNumber fault ranges limit index unknown)
      (Deflate.readNumber ranges index unknown) fun _ => True := by
  unfold readNumber Deflate.readNumber
  by_cases beyond : limit ≤ index
  · rw [if_pos beyond, Array.getElem?_eq_none (size ▸ beyond)]
    exact Guards.throw fun _ _ => expected
  · have inside : index < ranges.size := by omega
    rw [if_neg beyond, Array.getElem?_eq_getElem inside]
    refine Guards.demand inside ?_
    rw [Array.getD_eq_getD_getElem?, Array.getElem?_eq_getElem inside, Option.getD_some]
    have few := narrow ranges[index] (Array.getElem_mem_toList inside)
    exact (safe_getBits few).bind fun _ _ => Guards.pure trivial

section Codes

variable {literals distances : List Nat}

theorem safe_readReference (distancesFit : Fits distances) {lengthSymbol : Nat}
    (isLength : firstLengthSymbol ≤ lengthSymbol) :
    Safe (readReference fault (BlockCodes.build literals distances) lengthSymbol)
      (Deflate.readReference (BlockCodes.build literals distances) lengthSymbol)
      fun _ => True := by
  refine Guards.demand isLength ?_
  refine (safe_readNumber rfl narrow_lengthRanges _ (by decide)).bind fun _ _ => ?_
  refine (safe_decode distancesFit).bind fun symbol _ => ?_
  exact (safe_readNumber rfl narrow_distanceRanges symbol (by decide)).bind fun _ _ =>
    Guards.pure trivial

/-- The tokens that are read are valid. -/
theorem safe_readToken (literalsFit : Fits literals) (distancesFit : Fits distances) :
    Safe (readToken fault (BlockCodes.build literals distances))
      (Deflate.readToken (BlockCodes.build literals distances))
      fun result => ∀ token ∈ result, token.Valid := by
  have composed : Safe (readToken fault (BlockCodes.build literals distances))
      (Deflate.readToken (BlockCodes.build literals distances)) fun _ => True := by
    refine (safe_decode literalsFit).bind fun symbol _ => ?_
    refine Guards.ite (fun isLiteral => Guards.demand isLiteral (Guards.pure trivial)) fun high => ?_
    refine Guards.ite (fun _ => Guards.pure trivial) fun notEnd => ?_
    have isLength : firstLengthSymbol ≤ symbol := by
      simp only [endOfBlock] at high notEnd
      simp only [firstLengthSymbol]
      omega
    exact (safe_readReference distancesFit isLength).bind fun _ _ => Guards.pure trivial
  refine composed.sharpen (fun _ => id) (reads_readToken literalsFit distancesFit) ?_
  rintro position result word spelled token ⟨⟩
  exact spelled.1.1

end Codes

/-! ## Stored bytes -/

theorem safe_readStoredBytes :
    SafeFrom Aligned Aligned (readStoredBytes fault) Deflate.readStoredBytes
      fun bytes => bytes.size ≤ 65535 := by
  have composed : SafeFrom Aligned Aligned (readStoredBytes fault) Deflate.readStoredBytes
      fun _ => True := by
    refine (safe_getBits_aligned (by decide) (by decide)).bind fun length _ => ?_
    refine (safe_getBits_aligned (by decide) (by decide)).bind fun complement _ => ?_
    refine Guards.ite (fun _ => Guards.throw fun _ _ => by decide) fun _ => ?_
    refine Guards.look (fun source aligned => remaining_eq aligned.wellFormed) fun source _ => ?_
    exact Guards.ite (fun _ => Guards.throw fun _ _ => by decide) fun _ => safe_getBytes length
  exact composed.sharpen (fun _ => Aligned.wellFormed) reads_readStoredBytes fun _ _ _ => And.left

/-! ## Transcripts -/

/-- The source of a transcript is as it should be, and so are the elements seen so far. -/
structure Holds (place : BitSource → Prop) (transcript : Transcript) : Prop where
  source : place transcript.source
  elements : ∀ element ∈ transcript.elements, element.Valid

theorem Holds.push {place placeAfter : BitSource → Prop} {transcript : Transcript}
    (holds : Holds place transcript) {after : BitSource} (reached : placeAfter after)
    {element : Element} (valid : element.Valid) :
    Holds placeAfter ⟨after, transcript.elements.push element⟩ where
  source := reached
  elements := by
    intro other member
    rcases Array.mem_push.mp member with earlier | rfl
    · exact holds.elements other earlier
    · exact valid

/-- A guarded parser does what a parser does and sees valid elements only, also where it fails,
which it does in expected ways. -/
abbrev SafeParserFrom (before after : BitSource → Prop) {α : Type}
    (guarded action : Transcript.Action α) (result : α → Prop) : Prop :=
  Guards (Holds before) (Holds after)
    (fun failure reached => failure.Expected ∧ ∀ element ∈ reached.elements, element.Valid)
    guarded action result

/-- From every well-formed source, a guarded parser does what a parser does. -/
abbrev SafeParser {α : Type} (guarded action : Transcript.Action α) (result : α → Prop) : Prop :=
  SafeParserFrom BitSource.WellFormed BitSource.WellFormed guarded action result

namespace SafeParserFrom

variable {α : Type} {before after : BitSource → Prop} {result : α → Prop}

protected theorem throw {failure : Failure} (expected : failure.Expected) :
    SafeParserFrom before after (throw failure) (throw failure) result :=
  Guards.throw fun _ holds => ⟨expected, holds.elements⟩

protected theorem reading {guarded action : Action α}
    (safe : SafeFrom before after guarded action result) :
    SafeParserFrom before after (Transcript.reading guarded) (Transcript.reading action) result := by
  rintro ⟨source, elements⟩ ⟨place, valid⟩
  obtain ⟨same, outcome⟩ := safe source place
  simp only [Transcript.reading, same, true_and]
  cases run : action source with
  | ok value reached =>
      rw [run] at outcome
      exact ⟨outcome.1, outcome.2, valid⟩
  | error failure reached =>
      rw [run] at outcome
      exact ⟨outcome, valid⟩

protected theorem emit (element : Element) (valid : element.Valid)
    (stays : ∀ source, before source → after source) :
    SafeParserFrom before after (Transcript.emit element) (Transcript.emit element) fun _ => True :=
  fun _ holds => ⟨rfl, trivial, holds.push (stays _ holds.source) valid⟩

end SafeParserFrom

section Codes

variable {literals distances : List Nat}

theorem safe_readTokens (literalsFit : Fits literals) (distancesFit : Fits distances) :
    SafeParser (readTokens fault (BlockCodes.build literals distances))
      (Deflate.readTokens (BlockCodes.build literals distances)) fun _ => True := by
  have token := @safe_readToken fault _ _ literalsFit distancesFit
  intro before holds
  fun_induction Deflate.readTokens (BlockCodes.build literals distances) before with
  | case1 source elements failure after step =>
      rw [readTokens, token.eq holds.source, step]
      exact ⟨rfl, token.of_error holds.source step, holds.elements⟩
  | case2 source elements after step =>
      rw [readTokens, token.eq holds.source, step]
      exact ⟨rfl, trivial, holds.push (token.of_ok holds.source step).2 trivial⟩
  | case3 source elements spelled after step ih =>
      have progress := consumes_readToken _ step
      obtain ⟨valid, formed⟩ := token.of_ok holds.source step
      rw [readTokens, token.eq holds.source, step]
      dsimp only
      rw [if_pos progress]
      exact ih (holds.push formed (valid spelled rfl))

end Codes

theorem safe_readContent (kind : BlockKind) :
    SafeParser (readContent fault kind)
      (Deflate.readContent kind) fun _ => True := by
  cases kind with
  | stored =>
      exact (SafeParserFrom.reading safe_getPadding).bind fun _ _ =>
        (SafeParserFrom.reading safe_readStoredBytes).bind fun _ small =>
          SafeParserFrom.emit (.stored _ _) small fun _ => Aligned.wellFormed
  | fixed =>
      rw [readContent, Deflate.readContent, fixedCodes_eq, BlockCodes.fixed_eq]
      exact safe_readTokens BlockCodes.complete_fixedLiteralLengths.fits
        BlockCodes.complete_fixedDistanceLengths.fits
  | dynamic =>
      refine (SafeParserFrom.reading safe_readHeader).bind fun header valid => ?_
      rw [codesOfHeader_eq valid]
      cases built : BlockCodes.ofHeader header with
      | error failure => exact SafeParserFrom.throw (expected_codesOfHeader built)
      | ok codes =>
          obtain ⟨rfl, -, codesValid⟩ := DynamicHeader.ofHeader_eq_ok_iff.mp built
          exact (SafeParserFrom.emit (.table header) valid fun _ => id).bind fun _ _ =>
            safe_readTokens codesValid.literals_fit codesValid.distances_fit

theorem safe_readBlockAfter (last : Bool) :
    SafeParser (readBlockAfter fault last)
      (Deflate.readBlockAfter last) fun _ => True := by
  refine (SafeParserFrom.reading (safe_getBits (by decide))).bind fun number _ => ?_
  cases BlockKind.ofNumber? number with
  | none => exact SafeParserFrom.throw (by decide)
  | some kind =>
      refine (SafeParserFrom.emit (.header kind last) trivial fun _ => id).bind fun _ _ => ?_
      refine (safe_readContent kind).bind fun _ _ => ?_
      refine Guards.ite (fun _ => ?_) fun _ => Guards.pure trivial
      refine (SafeParserFrom.reading safe_getPadding).bind fun padding _ => ?_
      exact (SafeParserFrom.emit (.finalPadding padding) trivial fun _ => Aligned.wellFormed).bind
        fun _ _ => Guards.pure trivial

theorem safe_readBlock :
    SafeParser (readBlock fault) Deflate.readBlock
      fun _ => True :=
  (SafeParserFrom.reading safe_getBit).bind fun last _ => safe_readBlockAfter last

/-! ## Blocks -/

theorem readSpan_of_ok {before after : Transcript} (holds : Holds BitSource.WellFormed before)
    {last : Bool} (run : Deflate.readBlock before = .ok last after) :
    readSpan fault before =
      .ok ⟨⟨before.source.offset, after.source.offset - before.source.offset⟩, last⟩ after := by
  have block := @safe_readBlock fault
  have formed := (block.of_ok holds run).2.source
  obtain ⟨_, word, -, -, -, taken⟩ := parses_readBlock.sound holds.source run
  have forward : before.source.offset ≤ after.source.offset := by
    rw [taken.offset]
    exact Nat.le_add_right _ _
  rw [readSpan, bind_of_ok (reading_of_ok (offset_eq holds.source) _),
    bind_of_ok ((block.eq holds).trans run),
    bind_of_ok (reading_of_ok (offset_eq formed) _), demand_of forward]
  rfl

theorem readSpan_of_error {before after : Transcript} (holds : Holds BitSource.WellFormed before)
    {failure : Failure} (run : Deflate.readBlock before = .error failure after) :
    readSpan fault before = .error failure after := by
  rw [readSpan, bind_of_ok (reading_of_ok (offset_eq holds.source) _),
    bind_of_error ((safe_readBlock.eq holds).trans run)]

/-- A parse that ends well or in an expected way, and has seen only elements that a block can
have. -/
structure Sound (parse : Parse) : Prop where
  result : ∀ failure, parse.result = .error failure → failure.Expected
  elements : ∀ element ∈ parse.transcript.elements, element.Valid

theorem safe_parseBlocks (blocks : Array BlockSpan) {before : Transcript}
    (holds : Holds BitSource.WellFormed before) :
    parseBlocks fault blocks before = Deflate.parseBlocks blocks before ∧
      Sound (Deflate.parseBlocks blocks before) := by
  have left {before : Transcript} (holds : Holds BitSource.WellFormed before) :
      Transcript.reading (remaining fault) before = .ok before.remaining before :=
    reading_of_ok (remaining_eq holds.source) _
  have block := @safe_readBlock fault
  fun_induction Deflate.parseBlocks blocks before with
  | case1 blocks before few =>
      rw [parseBlocks, left holds]
      dsimp only
      rw [if_pos few]
      exact ⟨rfl, nofun, holds.elements⟩
  | case2 blocks before many failure after step =>
      obtain ⟨expected, valid⟩ := block.of_error holds step
      rw [parseBlocks, left holds]
      dsimp only
      rw [if_neg many, readSpan_of_error holds step]
      refine ⟨rfl, ?_, valid⟩
      rintro _ ⟨⟩
      exact expected
  | case3 blocks before many start after step span =>
      obtain ⟨-, reached⟩ := block.of_ok holds step
      rw [parseBlocks, left holds]
      dsimp only
      rw [if_neg many, readSpan_of_ok holds step]
      exact ⟨rfl, nofun, reached.elements⟩
  | case4 blocks before many start last after step span goesOn ih =>
      have progress := consumes_readBlock step
      obtain ⟨-, reached⟩ := block.of_ok holds step
      rw [parseBlocks, left holds]
      dsimp only
      rw [if_neg many, readSpan_of_ok holds step]
      dsimp only
      rw [if_neg goesOn, if_pos progress]
      exact ih reached

theorem safe_parse {source : BitSource} (wellFormed : source.WellFormed) :
    parse fault source = Deflate.parse source ∧ Sound (Deflate.parse source) :=
  safe_parseBlocks #[] ⟨wellFormed, by simp⟩

end Guarded

end DeflateAtlas
