import DeflateAtlas.Deflate.DynamicHeader

/-!
# Tokens

A compressed block is a sequence of tokens, literal bytes and references to
earlier output, that the end of the block closes.  Two Huffman codes spell
them: one for literals, lengths and the end of the block, one for distances.
-/

namespace DeflateAtlas.Deflate

/-- A step of the output: one byte, or a copy of earlier output. -/
inductive Token
  | literal (byte : UInt8)
  /-- `irregular` marks a length of 258 that was not sent as symbol 285. -/
  | reference (length distance : Nat) (irregular : Bool)
  deriving DecidableEq, Repr

/-- The two codes of a compressed block. -/
structure BlockCodes where
  literals : Huffman.DecodingTable
  distances : Huffman.DecodingTable

namespace BlockCodes

/-- The codes of given lengths; only codes that a dynamic block sends may leave room. -/
def ofLengths (literals distances : List Nat) (allowIncomplete : Bool) :
    Except Failure BlockCodes := do
  let literals ← Huffman.DecodingTable.ofLengths literals allowIncomplete
  let distances ← Huffman.DecodingTable.ofLengths distances allowIncomplete
  return { literals, distances }

/-- The codes of every fixed block. -/
def fixed : Except Failure BlockCodes :=
  ofLengths fixedLiteralLengths fixedDistanceLengths false

/-- The codes that a dynamic block sends; the end of the block needs a code word. -/
def ofHeader (header : DynamicHeader) : Except Failure BlockCodes :=
  if header.literalLengths.getD endOfBlock 0 = 0 then
    .error .missingEndOfBlock
  else
    ofLengths header.literalLengths header.distanceLengths true

end BlockCodes

/-- Read the extra bits of a symbol and add them to the least number it stands for. -/
def NumberRange.read (range : NumberRange) : BitSource.Action Nat := do
  let extra ← BitSource.getBits range.extraBits
  return range.base + extra

/-- Read the number that a symbol of an alphabet stands for. -/
def readNumber (ranges : Array NumberRange) (index : Nat) (unknown : Failure) :
    BitSource.Action Nat :=
  match ranges[index]? with
  | some range => range.read
  | none => throw unknown

/-- Read the rest of a reference whose length symbol has been read. -/
def readReference (codes : BlockCodes) (lengthSymbol : Nat) : BitSource.Action Token := do
  let length ← readNumber lengthRanges (lengthSymbol - firstLengthSymbol) .invalidLengthCode
  let distanceSymbol ← codes.distances.decode
  let distance ← readNumber distanceRanges distanceSymbol .invalidDistanceCode
  return .reference length distance (length = maxMatch ∧ lengthSymbol ≠ maxMatchSymbol)

/-- Read a token, or nothing at the end of the block. -/
def readToken (codes : BlockCodes) : BitSource.Action (Option Token) := do
  let symbol ← codes.literals.decode
  if symbol < endOfBlock then
    return some (.literal symbol.toUInt8)
  else if symbol = endOfBlock then
    return none
  else
    return some (← readReference codes symbol)

theorem shrinks_readNumber (ranges : Array NumberRange) (index : Nat) (unknown : Failure) :
    Shrinks BitSource.remaining (readNumber ranges index unknown) := by
  unfold readNumber
  split
  · exact (BitSource.shrinks_getBits _).bind fun _ => Shrinks.pure _
  · exact Shrinks.throw _

theorem shrinks_readReference (codes : BlockCodes) (lengthSymbol : Nat) :
    Shrinks BitSource.remaining (readReference codes lengthSymbol) :=
  (shrinks_readNumber _ _ _).bind fun _ =>
    codes.distances.consumes_decode.shrinks.bind fun _ =>
      (shrinks_readNumber _ _ _).bind fun _ => Shrinks.pure _

/-- Every token takes at least one bit, so a loop over tokens ends. -/
theorem consumes_readToken (codes : BlockCodes) :
    Consumes BitSource.remaining (readToken codes) :=
  codes.literals.consumes_decode.bind fun symbol =>
    Shrinks.ite (Shrinks.pure _) <|
      Shrinks.ite (Shrinks.pure _) <|
        (shrinks_readReference codes symbol).bind fun _ => Shrinks.pure _

end DeflateAtlas.Deflate
