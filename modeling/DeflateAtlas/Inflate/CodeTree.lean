import DeflateAtlas.Huffman.Code
import DeflateAtlas.Inflate.BitCursor

/-!
# Code trees

A code as a binary tree: the bits of a word lead from the root to the leaf
with its symbol.  Decoding goes down one branch for every bit; a bit that leads
to no word is an error as soon as it is read.

A code is complete if its words fill the whole code space, that is, if the
spaces they take, one half for a word of one bit, one quarter for a word of two
and so on, add up to one.  Codes with at most one word are sparse.  Only a
sparse code has gaps, places that begin no word.  Words are indexed by their
first `indexWidth` bits, and the index knows its gaps; a gap further down reads
as symbol zero.
-/

namespace DeflateAtlas.Inflate

/-- The words that begin with the bits that led here. -/
inductive CodeTree
  /-- No word. -/
  | nothing
  /-- The word of a symbol, and no other. -/
  | leaf (symbol : Nat)
  /-- The words that go on with a zero, and those that go on with a one. -/
  | branch (zero one : CodeTree)
  deriving DecidableEq, Repr

namespace CodeTree

/-- Add a word to a tree. -/
def insert (symbol : Nat) : (word : List Bool) → CodeTree → CodeTree
  | [], _ => .leaf symbol
  | false :: word, .branch zero one => .branch (insert symbol word zero) one
  | true :: word, .branch zero one => .branch zero (insert symbol word one)
  | false :: word, _ => .branch (insert symbol word .nothing) .nothing
  | true :: word, _ => .branch .nothing (insert symbol word .nothing)

/-- The number of bits at the beginning of a word by which words are indexed. -/
def indexWidth : Nat := 10

/-- Put symbol zero into the gaps below the index of a tree that `depth` bits lead to. -/
def fillGaps (depth : Nat) : CodeTree → CodeTree
  | .nothing => if depth ≤ indexWidth then .nothing else .leaf 0
  | .leaf symbol => .leaf symbol
  | .branch zero one => .branch (fillGaps (depth + 1) zero) (fillGaps (depth + 1) one)

/-- Follow the bits of the data down to a symbol. -/
def descend : CodeTree → BitCursor.Action Nat
  | .nothing => throw .corrupt
  | .leaf symbol => pure symbol
  | .branch zero one => do
      let bit ← BitCursor.bit
      if bit then descend one else descend zero

theorem shrinks_descend (tree : CodeTree) : Shrinks BitCursor.remaining tree.descend := by
  induction tree with
  | nothing => exact Shrinks.throw _
  | leaf symbol => exact Shrinks.pure _
  | branch zero one zeroIH oneIH =>
      exact BitCursor.consumes_bit.shrinks.bind fun _ => Shrinks.ite oneIH zeroIH

end CodeTree

/-- A code whose words all have at least one bit: the words that begin with a zero and those
that begin with a one. -/
structure Codebook where
  zero : CodeTree
  one : CodeTree
  deriving DecidableEq, Repr

namespace Codebook

/-- Add a word to a code; a word without bits adds nothing. -/
def insert (codebook : Codebook) (symbol : Nat) : (word : List Bool) → Codebook
  | [] => codebook
  | false :: word => { codebook with zero := codebook.zero.insert symbol word }
  | true :: word => { codebook with one := codebook.one.insert symbol word }

/-- Put symbol zero into the gaps below the index. -/
def fillGaps (codebook : Codebook) : Codebook :=
  ⟨codebook.zero.fillGaps 1, codebook.one.fillGaps 1⟩

/-- The canonical code with the given lengths. -/
def ofLengths (lengths : List Nat) : Codebook :=
  (Huffman.codeWords lengths).zipIdx.foldl
    (fun codebook (word, symbol) => codebook.insert symbol word.bits) ⟨.nothing, .nothing⟩

/-- The share of the code space that a word takes, in units of the smallest share. -/
def share (length : Nat) : Nat :=
  if length = 0 then 0 else 1 <<< (Huffman.maxLength - length)

/-- The words fill the code space. -/
def isComplete (lengths : List Nat) : Bool :=
  (lengths.map share).foldr (· + ·) 0 == 1 <<< Huffman.maxLength

/-- There is at most one word. -/
def isSparse (lengths : List Nat) : Bool :=
  (lengths.filter (· != 0)).length ≤ 1

/-- The code with the given lengths, if they fill the code space. -/
def complete? (lengths : List Nat) : Option Codebook :=
  if isComplete lengths then some (ofLengths lengths) else none

/-- The code with the given lengths, if they fill the code space or give at most one word. -/
def ofLengths? (lengths : List Nat) : Option Codebook :=
  if isComplete lengths then
    some (ofLengths lengths)
  else if isSparse lengths then
    some (ofLengths lengths).fillGaps
  else
    none

/-- Decode a symbol. -/
def decode (codebook : Codebook) : BitCursor.Action Nat := do
  let bit ← BitCursor.bit
  if bit then codebook.one.descend else codebook.zero.descend

theorem consumes_decode (codebook : Codebook) : Consumes BitCursor.remaining codebook.decode :=
  BitCursor.consumes_bit.bind fun _ =>
    Shrinks.ite codebook.one.shrinks_descend codebook.zero.shrinks_descend

end Codebook

end DeflateAtlas.Inflate
