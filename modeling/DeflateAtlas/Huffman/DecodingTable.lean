import DeflateAtlas.BitSource
import DeflateAtlas.Huffman.Code

/-!
# Decoding canonical codes

A decoding table resolves words of at most eight bits by one look at the next
eight bits of the data, through `shortcuts`.  Longer words, and words near the
end of the data, are decoded bit by bit: words of one length are consecutive,
so the number of words of every length and the symbols in order suffice.

A table is built only from lengths whose words fill the whole code space.  On
request two codes that leave room are accepted as well: no words at all, and
one word of one bit.
-/

namespace DeflateAtlas.Huffman

/-- What the next eight bits of the data begin with; a length of zero says that they do not
begin with a whole word. -/
structure Shortcut where
  length : Nat
  symbol : Nat
  deriving DecidableEq, Repr

/-- What decoding needs to know about a code. -/
structure DecodingTable where
  /-- The number of words of each length from 1 to 15. -/
  counts : List Nat
  /-- The symbols that have a word, in the order of their words. -/
  symbols : Array Nat
  /-- For every byte, the word it begins with. -/
  shortcuts : Vector Shortcut 256

namespace DecodingTable

/-- Enter a word for every byte that begins with it. -/
def enter (shortcuts : Vector Shortcut 256) (symbol : Nat) (word : CodeWord) :
    Vector Shortcut 256 :=
  if word.length = 0 ∨ 8 < word.length then
    shortcuts
  else
    (List.range (1 <<< (8 - word.length))).foldl
      (fun entered suffix =>
        entered.setIfInBounds (word.reversed + suffix <<< word.length)
          ⟨word.length, symbol⟩)
      shortcuts

/-- The shortcuts of a code. -/
def shortcutsOf (lengths : List Nat) : Vector Shortcut 256 :=
  (codeWords lengths).zipIdx.foldl (fun entered (word, symbol) => enter entered symbol word)
    (Vector.replicate 256 ⟨0, 0⟩)

/-- The two codes that may leave room: no words, or one word of one bit. -/
def isDegenerate (lengths : List Nat) : Bool :=
  wordCount lengths == 0 || (wordCount lengths == 1 && lengths.count 1 == 1)

/-- The decoding table of a code. -/
def ofLengths (lengths : List Nat) (allowIncomplete : Bool) : Except Failure DecodingTable :=
  if lengths.any (maxLength < ·) then
    .error .codeLengthTooLong
  else
    match roomLeft (lengthCounts lengths) 1 with
    | none => .error .overSubscribedCode
    | some room =>
        if 0 < room ∧ ¬ (allowIncomplete ∧ isDegenerate lengths) then
          .error .incompleteCode
        else
          .ok
            { counts := lengthCounts lengths
              symbols := (orderedSymbols lengths).toArray
              shortcuts := shortcutsOf lengths }

/-- The word that a byte begins with. -/
def shortcut (table : DecodingTable) (byte : UInt8) : Shortcut :=
  have small := byte.toNat_lt
  table.shortcuts[byte.toNat]

/-- The symbol at a place in the order of words. -/
def symbolAt (table : DecodingTable) (index : Nat) : BitSource.Action Nat :=
  match table.symbols[index]? with
  | some symbol => pure symbol
  | none => throw .codeWithoutSymbol

/-- Decode bit by bit.  The bits read so far, with a zero after them, spell `code`; `first` is the
first word of the next length and `index` the place of its symbol; `counts` speaks of that
length and the greater ones. -/
def walk (table : DecodingTable) :
    (counts : List Nat) → (code first index : Nat) → BitSource.Action Nat
  | [], _, _, _ => throw .unassignedCode
  | count :: counts, code, first, index => do
      let bit ← BitSource.getBits 1
      let word := code + bit
      if word < first + count then
        if first ≤ word then
          table.symbolAt (index + (word - first))
        else
          throw .codeWithoutSymbol
      else
        walk table counts (2 * word) (2 * (first + count)) (index + count)

/-- Decode a symbol bit by bit. -/
def decodeSlow (table : DecodingTable) : BitSource.Action Nat :=
  table.walk table.counts 0 0 0

/-- Decode a symbol, at a single look if possible. -/
def decode (table : DecodingTable) : BitSource.Action Nat := fun source =>
  let filled := source.ensure 8
  let found := table.shortcut filled.lowByte
  if 8 ≤ filled.count ∧ found.length ≠ 0 then
    .ok found.symbol (filled.discard found.length)
  else
    table.decodeSlow filled

/-! ## Decoding takes bits -/

theorem shrinks_symbolAt (table : DecodingTable) (index : Nat) :
    Shrinks BitSource.remaining (table.symbolAt index) := by
  unfold symbolAt
  split
  · exact Shrinks.pure _
  · exact Shrinks.throw _

theorem consumes_walk (table : DecodingTable) (counts : List Nat) (code first index : Nat) :
    Consumes BitSource.remaining (table.walk counts code first index) := by
  induction counts generalizing code first index with
  | nil => rintro before value after ⟨⟩
  | cons count counts ih =>
      refine (BitSource.consumes_getBits (by decide)).bind fun bit => ?_
      exact Shrinks.ite
        (Shrinks.ite (table.shrinks_symbolAt _) (Shrinks.throw _))
        (ih _ _ _).shrinks

/-- A decoded symbol takes at least one bit, so a loop over symbols ends. -/
theorem consumes_decode (table : DecodingTable) :
    Consumes BitSource.remaining table.decode := by
  intro before value after ended
  simp only [decode] at ended
  split at ended
  · rename_i found
    cases ended
    rw [← BitSource.remaining_ensure before 8]
    simp only [BitSource.remaining, BitSource.discard]
    omega
  · have taken := table.consumes_walk _ _ _ _ ended
    rwa [BitSource.remaining_ensure] at taken

end DecodingTable

end DeflateAtlas.Huffman
