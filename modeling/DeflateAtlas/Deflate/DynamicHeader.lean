import DeflateAtlas.Deflate.Alphabet
import DeflateAtlas.Huffman.DecodingTable

/-!
# The code lengths of a dynamic block

A dynamic block begins with the lengths of its two codes, literal code first,
as one sequence that is run-length coded and then Huffman coded itself
(RFC 1951, 3.2.7).  `DynamicHeader` keeps the table just as it was sent, with
the choice of entries, so that it can be sent again bit for bit;
`literalLengths` and `distanceLengths` say what it means.
-/

namespace DeflateAtlas.Deflate

/-- One entry of a run-length coded sequence of code lengths. -/
inductive LengthEntry
  /-- One code length. -/
  | single (length : Nat)
  /-- The previous length again, 3 to 6 times: symbol 16. -/
  | repeatPrevious (count : Nat)
  /-- Zero, 3 to 10 times: symbol 17. -/
  | fewZeros (count : Nat)
  /-- Zero, 11 to 138 times: symbol 18. -/
  | manyZeros (count : Nat)
  deriving DecidableEq, Repr

namespace LengthEntry

/-- How many code lengths an entry stands for. -/
def count : LengthEntry → Nat
  | .single _ => 1
  | .repeatPrevious count | .fewZeros count | .manyZeros count => count

/-- The code lengths an entry stands for, after a sequence that ends in `previous`. -/
def lengths (previous : Nat) : LengthEntry → List Nat
  | .single length => [length]
  | .repeatPrevious count => List.replicate count previous
  | .fewZeros count | .manyZeros count => List.replicate count 0

@[simp]
theorem length_lengths (previous : Nat) (entry : LengthEntry) :
    (entry.lengths previous).length = entry.count := by
  cases entry <;> simp [lengths, count]

/-- Read the entry that a symbol of the code length alphabet begins. -/
def read (symbol : Nat) : BitSource.Action LengthEntry :=
  if symbol ≤ 15 then
    pure (.single symbol)
  else if symbol = 16 then do
    let extra ← BitSource.getBits 2
    return .repeatPrevious (3 + extra)
  else if symbol = 17 then do
    let extra ← BitSource.getBits 3
    return .fewZeros (3 + extra)
  else if symbol = 18 then do
    let extra ← BitSource.getBits 7
    return .manyZeros (11 + extra)
  else
    throw .invalidCodeLengthSymbol

theorem shrinks_read (symbol : Nat) : Shrinks BitSource.remaining (read symbol) :=
  Shrinks.ite (Shrinks.pure _) <|
    Shrinks.ite ((BitSource.shrinks_getBits 2).bind fun _ => Shrinks.pure _) <|
      Shrinks.ite ((BitSource.shrinks_getBits 3).bind fun _ => Shrinks.pure _) <|
        Shrinks.ite ((BitSource.shrinks_getBits 7).bind fun _ => Shrinks.pure _) <|
          Shrinks.throw _

end LengthEntry

/-- The table of a dynamic block as it was sent. -/
structure DynamicHeader where
  /-- The number of literal and length codes, 257 to 286. -/
  literalCount : Nat
  /-- The number of distance codes, 1 to 30. -/
  distanceCount : Nat
  /-- The lengths of the code length code, in the order of sending, 4 to 19 of them. -/
  sentLengths : List Nat
  /-- The lengths of the two codes, run-length coded. -/
  entries : List LengthEntry
  deriving DecidableEq, Repr

/-- The lengths of the code length code by symbol; those that were not sent are zero. -/
def codeLengthLengths (sentLengths : List Nat) : List Nat :=
  (List.range 19).map fun symbol => sentLengths.getD (codeLengthOrder.idxOf symbol) 0

/-- The code lengths that a sequence of entries stands for after those `before` it. -/
def expandEntriesOnto : (entries : List LengthEntry) → (before : Array Nat) → Array Nat
  | [], before => before
  | entry :: entries, before =>
      expandEntriesOnto entries (before ++ entry.lengths (before.back?.getD 0))

/-- The code lengths that a sequence of entries stands for. -/
def expandEntries (entries : List LengthEntry) : List Nat :=
  (expandEntriesOnto entries #[]).toList

namespace DynamicHeader

/-- The code lengths of the literal alphabet. -/
def literalLengths (header : DynamicHeader) : List Nat :=
  (expandEntries header.entries).take header.literalCount

/-- The code lengths of the distance alphabet. -/
def distanceLengths (header : DynamicHeader) : List Nat :=
  (expandEntries header.entries).drop header.literalCount

/-- Read `number` lengths of three bits each. -/
def readSentLengths : (number : Nat) → BitSource.Action (List Nat)
  | 0 => pure []
  | number + 1 => do
      let length ← BitSource.getBits 3
      let lengths ← readSentLengths number
      return length :: lengths

/-- Read the entry that comes after `covered` code lengths. -/
def readEntry (code : Huffman.DecodingTable) (covered : Nat) : BitSource.Action LengthEntry := do
  let symbol ← code.decode
  if symbol = 16 ∧ covered = 0 then
    throw .repeatWithoutPrevious
  else
    LengthEntry.read symbol

theorem consumes_readEntry (code : Huffman.DecodingTable) (covered : Nat) :
    Consumes BitSource.remaining (readEntry code covered) :=
  code.consumes_decode.bind fun symbol =>
    Shrinks.ite (Shrinks.throw _) (LengthEntry.shrinks_read symbol)

/-- Read entries until they cover `total` code lengths, of which the entries so far, latest first,
cover `covered`. -/
def readEntriesOnto (code : Huffman.DecodingTable) (total covered : Nat)
    (entries : List LengthEntry) : BitSource.Action (List LengthEntry) := fun source =>
  if covered < total then
    match _step : readEntry code covered source with
    | .error failure after => .error failure after
    | .ok entry after =>
        readEntriesOnto code total (covered + entry.count) (entry :: entries) after
  else if covered = total then
    .ok entries.reverse source
  else
    .error .codeLengthOverrun source
termination_by source => source.remaining
decreasing_by exact consumes_readEntry code covered _step

theorem shrinks_readEntriesOnto (code : Huffman.DecodingTable) (total covered : Nat)
    (entries : List LengthEntry) :
    Shrinks BitSource.remaining (readEntriesOnto code total covered entries) := by
  intro before value after ended
  fun_induction readEntriesOnto code total covered entries before with
  | case1 => cases ended
  | case2 covered entries source inside entry middle step ih =>
      have taken := consumes_readEntry code covered step
      have rest := ih ended
      omega
  | case3 => cases ended; omega
  | case4 => cases ended

/-- Read a table. -/
def read : BitSource.Action DynamicHeader := do
  let literalCount := (← BitSource.getBits 5) + 257
  let distanceCount := (← BitSource.getBits 5) + 1
  let sentCount := (← BitSource.getBits 4) + 4
  if 286 < literalCount ∨ 30 < distanceCount then
    throw .tooManyCodes
  else
    let sentLengths ← readSentLengths sentCount
    match Huffman.DecodingTable.ofLengths (codeLengthLengths sentLengths) false with
    | .error failure => throw failure
    | .ok code =>
        let entries ← readEntriesOnto code (literalCount + distanceCount) 0 []
        return { literalCount, distanceCount, sentLengths, entries }

theorem shrinks_readSentLengths (number : Nat) :
    Shrinks BitSource.remaining (readSentLengths number) := by
  induction number with
  | zero => exact Shrinks.pure _
  | succ number ih =>
      exact (BitSource.shrinks_getBits 3).bind fun _ => ih.bind fun _ => Shrinks.pure _

theorem shrinks_read : Shrinks BitSource.remaining read := by
  refine (BitSource.shrinks_getBits 5).bind fun _ => ?_
  refine (BitSource.shrinks_getBits 5).bind fun _ => ?_
  refine (BitSource.shrinks_getBits 4).bind fun _ => ?_
  refine Shrinks.ite (Shrinks.throw _) ?_
  refine (shrinks_readSentLengths _).bind fun sentLengths => ?_
  split
  · exact Shrinks.throw _
  · exact (shrinks_readEntriesOnto _ _ _ _).bind fun _ => Shrinks.pure _

end DynamicHeader

end DeflateAtlas.Deflate
