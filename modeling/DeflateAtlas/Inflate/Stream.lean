import DeflateAtlas.Deflate.Alphabet
import DeflateAtlas.Inflate.CodeTree

/-!
# Inflating

`inflate` decodes a deflate stream to its content (RFC 1951).  It is strict
about what a stream may hold, but a reference may reach to before the start of
the content: what lies there counts as zeros.  A field of several bits is
judged once all of its bits are there, so whichever of the end of the data and
a flaw in it comes first decides how inflating fails.
-/

namespace DeflateAtlas.Inflate

open Deflate

/-- Repeat the byte that lies `distance` before the end of the output, `length` times over. -/
def copy (distance : Nat) : (length : Nat) → (output : Bytes) → Bytes
  | 0, output => output
  | length + 1, output =>
      let byte := if output.size < distance then 0 else output.getD (output.size - distance) 0
      copy distance length (output.push byte)

/-- The number that a symbol stands for, with the extra bits that follow it. -/
def number (ranges : Array NumberRange) (index : Nat) : BitCursor.Action Nat :=
  match ranges[index]? with
  | some range => (range.base + ·) <$> BitCursor.bits range.extraBits
  | none => throw .corrupt

/-- Carry out one token on the output, or do nothing at the end of the block. -/
def step (literals distances : Codebook) (output : Bytes) : BitCursor.Action (Bytes × Bool) := do
  let symbol ← literals.decode
  if symbol < endOfBlock then
    return (output.push symbol.toUInt8, true)
  else if symbol = endOfBlock then
    return (output, false)
  else
    let length ← number lengthRanges (symbol - firstLengthSymbol)
    let distanceSymbol ← distances.decode
    let distance ← number distanceRanges distanceSymbol
    return (copy distance length output, true)

theorem shrinks_number (ranges : Array NumberRange) (index : Nat) :
    Shrinks BitCursor.remaining (number ranges index) := by
  unfold number
  split
  · exact (BitCursor.shrinks_bits _).map _
  · exact Shrinks.throw _

theorem consumes_step (literals distances : Codebook) (output : Bytes) :
    Consumes BitCursor.remaining (step literals distances output) :=
  literals.consumes_decode.bind fun _ =>
    Shrinks.ite (Shrinks.pure _) <|
      Shrinks.ite (Shrinks.pure _) <|
        (shrinks_number _ _).bind fun _ =>
          distances.consumes_decode.shrinks.bind fun _ =>
            (shrinks_number _ _).bind fun _ => Shrinks.pure _

/-- Carry out tokens up to the end of the block. -/
def tokens (literals distances : Codebook) (output : Bytes) : BitCursor.Action Bytes :=
  fun cursor =>
    match _step : step literals distances output cursor with
    | .error defect after => .error defect after
    | .ok (longer, false) after => .ok longer after
    | .ok (longer, true) after => tokens literals distances longer after
termination_by cursor => cursor.remaining
decreasing_by exact consumes_step literals distances output _step

theorem shrinks_tokens (literals distances : Codebook) (output : Bytes) :
    Shrinks BitCursor.remaining (tokens literals distances output) := by
  intro before value after ended
  fun_induction tokens literals distances output before with
  | case1 => cases ended
  | case2 output cursor result middle run =>
      cases ended
      exact (consumes_step _ _ _).shrinks run
  | case3 output cursor result middle run ih =>
      exact Nat.le_trans (ih ended) ((consumes_step _ _ _).shrinks run)

/-- Read one more code length, or a repetition of one. -/
def moreLengths (code : Codebook) (lengths : Array Nat) : BitCursor.Action (Array Nat) := do
  let symbol ← code.decode
  if symbol < 16 then
    return lengths.push symbol
  else if symbol = 16 then
    match lengths.back? with
    | none => throw .corrupt
    | some previous =>
        let extra ← BitCursor.bits 2
        return lengths ++ List.replicate (3 + extra) previous
  else if symbol = 17 then
    let extra ← BitCursor.bits 3
    return lengths ++ List.replicate (3 + extra) 0
  else
    let extra ← BitCursor.bits 7
    return lengths ++ List.replicate (11 + extra) 0

theorem consumes_moreLengths (code : Codebook) (lengths : Array Nat) :
    Consumes BitCursor.remaining (moreLengths code lengths) := by
  refine code.consumes_decode.bind fun symbol => ?_
  refine Shrinks.ite (Shrinks.pure _) (Shrinks.ite ?_ (Shrinks.ite ?_ ?_))
  · split
    · exact Shrinks.throw _
    · exact (BitCursor.shrinks_bits 2).bind fun _ => Shrinks.pure _
  · exact (BitCursor.shrinks_bits 3).bind fun _ => Shrinks.pure _
  · exact (BitCursor.shrinks_bits 7).bind fun _ => Shrinks.pure _

/-- Read code lengths until there are `total`. -/
def allLengths (code : Codebook) (total : Nat) (lengths : Array Nat) :
    BitCursor.Action (List Nat) := fun cursor =>
  if lengths.size < total then
    match _step : moreLengths code lengths cursor with
    | .error defect after => .error defect after
    | .ok more after => allLengths code total more after
  else if lengths.size = total then
    .ok lengths.toList cursor
  else
    .error .corrupt cursor
termination_by cursor => cursor.remaining
decreasing_by exact consumes_moreLengths code lengths _step

theorem shrinks_allLengths (code : Codebook) (total : Nat) (lengths : Array Nat) :
    Shrinks BitCursor.remaining (allLengths code total lengths) := by
  intro before value after ended
  fun_induction allLengths code total lengths before with
  | case1 => cases ended
  | case2 lengths cursor short more middle run ih =>
      exact Nat.le_trans (ih ended) ((consumes_moreLengths _ _).shrinks run)
  | case3 => cases ended; exact Nat.le_refl _
  | case4 => cases ended

/-- Read the lengths of the code length code, three bits each, in the order of sending. -/
def codeLengths : (order : List Nat) → (lengths : Array Nat) → BitCursor.Action (Array Nat)
  | [], lengths => pure lengths
  | symbol :: order, lengths => do
      let length ← BitCursor.bits 3
      codeLengths order (lengths.setIfInBounds symbol length)

theorem shrinks_codeLengths (order : List Nat) (lengths : Array Nat) :
    Shrinks BitCursor.remaining (codeLengths order lengths) := by
  induction order generalizing lengths with
  | nil => exact Shrinks.pure _
  | cons symbol order ih => exact (BitCursor.shrinks_bits 3).bind fun _ => ih _

/-- A code, or a flaw in the data if the lengths give none. -/
def accept (code : Option Codebook) : BitCursor.Action Codebook :=
  match code with
  | some code => pure code
  | none => throw .corrupt

theorem shrinks_accept (code : Option Codebook) : Shrinks BitCursor.remaining (accept code) := by
  unfold accept
  split
  · exact Shrinks.pure _
  · exact Shrinks.throw _

/-- Read the two codes of a dynamic block. -/
def dynamicCodes : BitCursor.Action (Codebook × Codebook) := do
  let literalCount ← (· + 257) <$> BitCursor.bits 5
  let distanceCount ← (· + 1) <$> BitCursor.bits 5
  let sentCount ← (· + 4) <$> BitCursor.bits 4
  if 286 < literalCount ∨ 30 < distanceCount then
    throw .corrupt
  else
    let sent ← codeLengths (codeLengthOrder.take sentCount) (Array.replicate 19 0)
    let code ← accept (Codebook.complete? sent.toList)
    let lengths ← allLengths code (literalCount + distanceCount) #[]
    let literals ← accept (Codebook.ofLengths? (lengths.take literalCount))
    let distances ← accept (Codebook.ofLengths? (lengths.drop literalCount))
    return (literals, distances)

theorem shrinks_dynamicCodes : Shrinks BitCursor.remaining dynamicCodes :=
  ((BitCursor.shrinks_bits 5).map _).bind fun _ =>
    ((BitCursor.shrinks_bits 5).map _).bind fun _ =>
      ((BitCursor.shrinks_bits 4).map _).bind fun _ =>
        Shrinks.ite (Shrinks.throw _) <|
          (shrinks_codeLengths _ _).bind fun _ =>
            (shrinks_accept _).bind fun _ =>
              (shrinks_allLengths _ _ _).bind fun _ =>
                (shrinks_accept _).bind fun _ =>
                  (shrinks_accept _).bind fun _ => Shrinks.pure _

/-- The literal code of every fixed block. -/
def fixedLiterals : Codebook :=
  Codebook.ofLengths fixedLiteralLengths

/-- The distance code of every fixed block. -/
def fixedDistances : Codebook :=
  Codebook.ofLengths fixedDistanceLengths

/-- Append the bytes of a stored block. -/
def stored (output : Bytes) : BitCursor.Action Bytes := do
  BitCursor.align
  let lengths ← BitCursor.bits 32
  let length := lengths % 65536
  if length + lengths / 65536 = 65535 then
    return output ++ (← BitCursor.bytes length)
  else
    throw .corrupt

/-- Carry out the rest of a block whose kind has been read. -/
def content (kind : Nat) (output : Bytes) : BitCursor.Action Bytes :=
  match BlockKind.ofNumber? kind with
  | none => throw .corrupt
  | some .stored => stored output
  | some .fixed => tokens fixedLiterals fixedDistances output
  | some .dynamic => do
      let (literals, distances) ← dynamicCodes
      tokens literals distances output

/-- Carry out a block and say whether it is the final one. -/
def block (output : Bytes) : BitCursor.Action (Bytes × Bool) := do
  let header ← BitCursor.bits 3
  let output ← content (header / 2) output
  return (output, header % 2 == 1)

theorem shrinks_stored (output : Bytes) : Shrinks BitCursor.remaining (stored output) :=
  BitCursor.shrinks_align.bind fun _ =>
    (BitCursor.shrinks_bits 32).bind fun _ =>
      Shrinks.ite ((BitCursor.shrinks_bytes _).bind fun _ => Shrinks.pure _) (Shrinks.throw _)

theorem shrinks_content (kind : Nat) (output : Bytes) :
    Shrinks BitCursor.remaining (content kind output) := by
  unfold content
  split
  · exact Shrinks.throw _
  · exact shrinks_stored output
  · exact shrinks_tokens _ _ output
  · exact shrinks_dynamicCodes.bind fun _ => shrinks_tokens _ _ output

theorem consumes_block (output : Bytes) : Consumes BitCursor.remaining (block output) :=
  (BitCursor.consumes_bits (by decide)).bind fun _ =>
    (shrinks_content _ output).bind fun _ => Shrinks.pure _

/-- Carry out blocks up to the final one. -/
def blocks (output : Bytes) : BitCursor.Action Bytes := fun cursor =>
  match _step : block output cursor with
  | .error defect after => .error defect after
  | .ok (longer, true) after => .ok longer after
  | .ok (longer, false) after => blocks longer after
termination_by cursor => cursor.remaining
decreasing_by exact consumes_block output _step

/-- The content of the deflate stream that begins at byte `start`, and the number of bytes the
stream takes. -/
def inflate (data : Bytes) (start : Nat) : Except Defect (Bytes × Nat) :=
  match blocks #[] ⟨data, start * 8⟩ with
  | .ok output cursor => .ok (output, cursor.bytesTouched - start)
  | .error defect _ => .error defect

end DeflateAtlas.Inflate
