import DeflateAtlas.Deflate.Parse
import DeflateAtlas.Proofs.BitSource.Reading
import DeflateAtlas.Proofs.Huffman.CodeWord

/-!
# How deflate blocks are spelled

A `Block` describes a deflate block: its stored bytes or its tokens, the table
of a dynamic block just as it is sent, and the padding.  `Block.bits` writes
it by RFC 1951 from a bit position on, and `Block.Valid` says which
descriptions can be written.  A description is all there is to a block: it
fixes the choice of run-length entries, the padding, and which of the two
spellings of length 258 is used.
-/

namespace DeflateAtlas.Deflate

open BitSource Huffman

/-! ## Lengths and distances -/

def NumberRange.contains (range : NumberRange) (number : Nat) : Bool :=
  range.base ≤ number && number < range.base + 2 ^ range.extraBits

/-- The index of the first range that a number lies in. -/
def rangeOf (ranges : List NumberRange) (number : Nat) : Nat :=
  ranges.findIdx (·.contains number)

/-- The bits that single a number out in the range of an index. -/
def extraBits (ranges : Array NumberRange) (index number : Nat) : List Bool :=
  match ranges[index]? with
  | some range => lowBits range.extraBits (number - range.base)
  | none => []

/-- The ranges of lengths follow one another, but for the last: 258 ends the range before it and
has a range of its own besides, which is used unless the length is irregular. -/
def lengthIndex (length : Nat) (irregular : Bool) : Nat :=
  if length = maxMatch ∧ irregular = false then
    maxMatchSymbol - firstLengthSymbol
  else
    rangeOf (lengthRanges.toList.take (maxMatchSymbol - firstLengthSymbol)) length

def distanceSymbol (distance : Nat) : Nat :=
  rangeOf distanceRanges.toList distance

/-! ## Tokens -/

namespace Token

/-- The bits of a token in the codes of given lengths. -/
def bits (literals distances : List Nat) : Token → List Bool
  | .literal byte => wordBits literals byte.toNat
  | .reference length distance irregular =>
      wordBits literals (firstLengthSymbol + lengthIndex length irregular) ++
        extraBits lengthRanges (lengthIndex length irregular) length ++
        wordBits distances (distanceSymbol distance) ++
        extraBits distanceRanges (distanceSymbol distance) distance

/-- A token that deflate has; only a length of 258 can be irregular. -/
def Valid : Token → Prop
  | .literal _ => True
  | .reference length distance irregular =>
      minMatch ≤ length ∧ length ≤ maxMatch ∧ 1 ≤ distance ∧ distance ≤ 32768 ∧
        (irregular = true → length = maxMatch)

/-- The codes have words for a token. -/
def Expressible (literals distances : List Nat) : Token → Prop
  | .literal byte => HasWord literals byte.toNat
  | .reference length distance irregular =>
      HasWord literals (firstLengthSymbol + lengthIndex length irregular) ∧
        HasWord distances (distanceSymbol distance)

instance : (token : Token) → Decidable token.Valid
  | .literal _ => inferInstanceAs (Decidable True)
  | .reference length distance irregular =>
      inferInstanceAs (Decidable (minMatch ≤ length ∧ length ≤ maxMatch ∧ 1 ≤ distance ∧
        distance ≤ 32768 ∧ (irregular = true → length = maxMatch)))

instance (literals distances : List Nat) :
    (token : Token) → Decidable (token.Expressible literals distances)
  | .literal byte => inferInstanceAs (Decidable (HasWord literals byte.toNat))
  | .reference length distance irregular =>
      inferInstanceAs (Decidable
        (HasWord literals (firstLengthSymbol + lengthIndex length irregular) ∧
          HasWord distances (distanceSymbol distance)))

end Token

/-- The bits of tokens and of the end of their block. -/
def tokenBits (literals distances : List Nat) (tokens : List Token) : List Bool :=
  tokens.flatMap (Token.bits literals distances) ++ wordBits literals endOfBlock

theorem tokenBits_cons (literals distances : List Nat) (token : Token) (tokens : List Token) :
    tokenBits literals distances (token :: tokens) =
      token.bits literals distances ++ tokenBits literals distances tokens := by
  rw [tokenBits, List.flatMap_cons, List.append_assoc, tokenBits]

/-- Tokens that two codes can spell, with the end of the block. -/
def TokensValid (literals distances : List Nat) (tokens : List Token) : Prop :=
  HasWord literals endOfBlock ∧
    ∀ token ∈ tokens, token.Valid ∧ token.Expressible literals distances

instance (literals distances : List Nat) (tokens : List Token) :
    Decidable (TokensValid literals distances tokens) :=
  inferInstanceAs (Decidable (HasWord literals endOfBlock ∧
    ∀ token ∈ tokens, token.Valid ∧ token.Expressible literals distances))

/-! ## Tables -/

namespace LengthEntry

/-- The symbol of an entry in the code length alphabet. -/
def symbol : LengthEntry → Nat
  | .single length => length
  | .repeatPrevious _ => 16
  | .fewZeros _ => 17
  | .manyZeros _ => 18

/-- The bits that follow the symbol of an entry. -/
def extra : LengthEntry → List Bool
  | .single _ => []
  | .repeatPrevious count => lowBits 2 (count - 3)
  | .fewZeros count => lowBits 3 (count - 3)
  | .manyZeros count => lowBits 7 (count - 11)

/-- The bits of an entry, given the lengths of the code length code. -/
def bits (lengths : List Nat) (entry : LengthEntry) : List Bool :=
  wordBits lengths entry.symbol ++ entry.extra

/-- An entry that can be sent. -/
def Valid : LengthEntry → Prop
  | .single length => length ≤ 15
  | .repeatPrevious count => 3 ≤ count ∧ count ≤ 6
  | .fewZeros count => 3 ≤ count ∧ count ≤ 10
  | .manyZeros count => 11 ≤ count ∧ count ≤ 138

instance : (entry : LengthEntry) → Decidable entry.Valid
  | .single length => inferInstanceAs (Decidable (length ≤ 15))
  | .repeatPrevious count => inferInstanceAs (Decidable (3 ≤ count ∧ count ≤ 6))
  | .fewZeros count => inferInstanceAs (Decidable (3 ≤ count ∧ count ≤ 10))
  | .manyZeros count => inferInstanceAs (Decidable (11 ≤ count ∧ count ≤ 138))

namespace Valid

variable {entry : LengthEntry}

theorem count_pos (valid : entry.Valid) : 0 < entry.count := by
  cases entry <;> simp only [Valid] at valid <;> simp only [count] <;> omega

theorem count_le (valid : entry.Valid) : entry.count ≤ 138 := by
  cases entry <;> simp only [Valid] at valid <;> simp only [count] <;> omega

theorem symbol_lt (valid : entry.Valid) : entry.symbol < 19 := by
  cases entry <;> simp only [Valid] at valid <;> simp only [symbol] <;> omega

end Valid

end LengthEntry

/-- How many code lengths some entries stand for. -/
def covered (entries : List LengthEntry) : Nat :=
  (entries.map LengthEntry.count).sum

@[simp]
theorem covered_nil : covered [] = 0 :=
  rfl

@[simp]
theorem covered_cons (entry : LengthEntry) (entries : List LengthEntry) :
    covered (entry :: entries) = entry.count + covered entries := by
  simp [covered]

/-- Entries that can be sent after `before` code lengths, the first of which repeats nothing if
there is no length before it. -/
def EntriesValid (lengths : List Nat) (before : Nat) (entries : List LengthEntry) : Prop :=
  (∀ entry ∈ entries, entry.Valid ∧ HasWord lengths entry.symbol) ∧
    (before = 0 → ∀ entry ∈ entries.head?, entry.symbol ≠ 16)

theorem entriesValid_nil (lengths : List Nat) (before : Nat) : EntriesValid lengths before [] := by
  simp [EntriesValid]

instance (lengths : List Nat) (before : Nat) (entries : List LengthEntry) :
    Decidable (EntriesValid lengths before entries) :=
  inferInstanceAs (Decidable ((∀ entry ∈ entries, entry.Valid ∧ HasWord lengths entry.symbol) ∧
    (before = 0 → ∀ entry ∈ entries.head?, entry.symbol ≠ 16)))

namespace DynamicHeader

/-- The bits of a table. -/
def bits (header : DynamicHeader) : List Bool :=
  lowBits 5 (header.literalCount - 257) ++ lowBits 5 (header.distanceCount - 1) ++
    lowBits 4 (header.sentLengths.length - 4) ++ header.sentLengths.flatMap (lowBits 3) ++
    header.entries.flatMap (LengthEntry.bits (codeLengthLengths header.sentLengths))

/-- A table that can be sent. -/
structure Valid (header : DynamicHeader) : Prop where
  literals : 257 ≤ header.literalCount ∧ header.literalCount ≤ 286
  distances : 1 ≤ header.distanceCount ∧ header.distanceCount ≤ 30
  sent : 4 ≤ header.sentLengths.length ∧ header.sentLengths.length ≤ 19
  sentLengths : ∀ length ∈ header.sentLengths, length < 8
  /-- The code length code is complete. -/
  complete : Complete (codeLengthLengths header.sentLengths)
  entries : EntriesValid (codeLengthLengths header.sentLengths) 0 header.entries
  covers : covered header.entries = header.literalCount + header.distanceCount

/-- The codes of a table can be used: each is complete or has a single word of one bit, and the
distance code may also be empty. -/
structure CodesValid (header : DynamicHeader) : Prop where
  literals : Complete header.literalLengths ∨ SingleBit header.literalLengths
  distances : Complete header.distanceLengths ∨ SingleBit header.distanceLengths ∨
    Wordless header.distanceLengths

instance (header : DynamicHeader) : Decidable header.Valid :=
  decidable_of_iff
    ((257 ≤ header.literalCount ∧ header.literalCount ≤ 286) ∧
      (1 ≤ header.distanceCount ∧ header.distanceCount ≤ 30) ∧
      (4 ≤ header.sentLengths.length ∧ header.sentLengths.length ≤ 19) ∧
      (∀ length ∈ header.sentLengths, length < 8) ∧
      Complete (codeLengthLengths header.sentLengths) ∧
      EntriesValid (codeLengthLengths header.sentLengths) 0 header.entries ∧
      covered header.entries = header.literalCount + header.distanceCount)
    ⟨fun ⟨literals, distances, sent, sentLengths, complete, entries, covers⟩ =>
      ⟨literals, distances, sent, sentLengths, complete, entries, covers⟩,
    fun ⟨literals, distances, sent, sentLengths, complete, entries, covers⟩ =>
      ⟨literals, distances, sent, sentLengths, complete, entries, covers⟩⟩

instance (header : DynamicHeader) : Decidable header.CodesValid :=
  decidable_of_iff
    ((Complete header.literalLengths ∨ SingleBit header.literalLengths) ∧
      (Complete header.distanceLengths ∨ SingleBit header.distanceLengths ∨
        Wordless header.distanceLengths))
    ⟨fun ⟨literals, distances⟩ => ⟨literals, distances⟩,
    fun ⟨literals, distances⟩ => ⟨literals, distances⟩⟩

end DynamicHeader

/-! ## Blocks -/

/-- What follows the header of a block. -/
inductive Content
  | stored (padding : UInt8) (bytes : Bytes)
  | fixed (tokens : List Token)
  | dynamic (header : DynamicHeader) (tokens : List Token)
  deriving DecidableEq

namespace Content

def kind : Content → BlockKind
  | .stored .. => .stored
  | .fixed _ => .fixed
  | .dynamic .. => .dynamic

/-- The bits of a content that begins at a place in the data. -/
def bits (position : Nat) : Content → List Bool
  | .stored padding bytes =>
      lowBits (paddingWidth position) padding.toNat ++ lowBits 16 bytes.size ++
        lowBits 16 (0xffff - bytes.size) ++ bitsOfBytes bytes.toList
  | .fixed tokens => tokenBits fixedLiteralLengths fixedDistanceLengths tokens
  | .dynamic header tokens =>
      header.bits ++ tokenBits header.literalLengths header.distanceLengths tokens

/-- A content that can be written at a place in the data. -/
def Valid (position : Nat) : Content → Prop
  | .stored padding bytes =>
      padding.toNat < 2 ^ paddingWidth position ∧ bytes.size ≤ 0xffff
  | .fixed tokens => ∀ token ∈ tokens, token.Valid
  | .dynamic header tokens =>
      header.Valid ∧ header.CodesValid ∧
        TokensValid header.literalLengths header.distanceLengths tokens

instance (position : Nat) : (content : Content) → Decidable (content.Valid position)
  | .stored padding bytes =>
      inferInstanceAs (Decidable
        (padding.toNat < 2 ^ paddingWidth position ∧ bytes.size ≤ 0xffff))
  | .fixed tokens => inferInstanceAs (Decidable (∀ token ∈ tokens, token.Valid))
  | .dynamic header tokens =>
      inferInstanceAs (Decidable (header.Valid ∧ header.CodesValid ∧
        TokensValid header.literalLengths header.distanceLengths tokens))

def elements : Content → List Element
  | .stored padding bytes => [.stored padding bytes]
  | .fixed tokens => tokens.map .token ++ [.endOfBlock]
  | .dynamic header tokens => .table header :: (tokens.map .token ++ [.endOfBlock])

end Content

/-- The bits of the padding after the final block, if there is one. -/
def finalBits (position : Nat) : Option UInt8 → List Bool
  | some padding => lowBits (paddingWidth position) padding.toNat
  | none => []

/-- The padding after the final block fits before the next byte boundary. -/
def FinalValid (position : Nat) (finalPadding : Option UInt8) : Prop :=
  ∀ padding ∈ finalPadding, padding.toNat < 2 ^ paddingWidth position

instance (position : Nat) (finalPadding : Option UInt8) :
    Decidable (FinalValid position finalPadding) :=
  inferInstanceAs
    (Decidable (∀ padding ∈ finalPadding, padding.toNat < 2 ^ paddingWidth position))

theorem finalValid_none (position : Nat) : FinalValid position none :=
  nofun

theorem finalValid_zero (position : Nat) : FinalValid position (some 0) := by
  rintro padding ⟨⟩
  exact Nat.two_pow_pos _

/-- A block; the final one has the padding after it, any other has none. -/
structure Block where
  content : Content
  finalPadding : Option UInt8
  deriving DecidableEq

namespace Block

def isFinal (block : Block) : Bool :=
  block.finalPadding.isSome

/-- The bits of a block up to its final padding. -/
def openBits (position : Nat) (block : Block) : List Bool :=
  block.isFinal :: lowBits 2 block.content.kind.number ++ block.content.bits (position + 3)

/-- The bits of a block that begins at a place in the data. -/
def bits (position : Nat) (block : Block) : List Bool :=
  block.openBits position ++
    finalBits (position + (block.openBits position).length) block.finalPadding

/-- A block that can be written at a place in the data. -/
def Valid (position : Nat) (block : Block) : Prop :=
  block.content.Valid (position + 3) ∧
    FinalValid (position + (block.openBits position).length) block.finalPadding

instance (position : Nat) (block : Block) : Decidable (block.Valid position) :=
  inferInstanceAs (Decidable (block.content.Valid (position + 3) ∧
    FinalValid (position + (block.openBits position).length) block.finalPadding))

def elements (block : Block) : List Element :=
  .header block.content.kind block.isFinal :: block.content.elements ++
    (block.finalPadding.map Element.finalPadding).toList

/-- Where a block that begins at a place in the data ends. -/
def stop (position : Nat) (block : Block) : Nat :=
  position + (block.bits position).length

/-- Where a block that begins at a place in the data lies. -/
def span (position : Nat) (block : Block) : BlockSpan :=
  ⟨⟨position, (block.bits position).length⟩, block.isFinal⟩

end Block

/-! ## Sequences of blocks -/

/-- The bits of blocks that follow one another. -/
def blockBits : (position : Nat) → List Block → List Bool
  | _, [] => []
  | position, block :: blocks =>
      block.bits position ++ blockBits (block.stop position) blocks

/-- Where blocks that follow one another lie. -/
def blockSpans : (position : Nat) → List Block → List BlockSpan
  | _, [] => []
  | position, block :: blocks =>
      block.span position :: blockSpans (block.stop position) blocks

/-- Blocks that can follow one another: none but the last is final. -/
def BlocksValid : (position : Nat) → List Block → Prop
  | _, [] => True
  | position, block :: blocks =>
      block.Valid position ∧ (blocks ≠ [] → block.isFinal = false) ∧
        BlocksValid (block.stop position) blocks

theorem blocksValid_stored (position : Nat) {bytes : Bytes} (short : bytes.size ≤ 65535) :
    BlocksValid position [⟨.stored 0 bytes, some 0⟩] :=
  ⟨⟨⟨Nat.two_pow_pos _, short⟩, finalValid_zero _⟩, fun more => absurd rfl more, trivial⟩

instance decidableBlocksValid :
    (position : Nat) → (blocks : List Block) → Decidable (BlocksValid position blocks)
  | _, [] => inferInstanceAs (Decidable True)
  | position, block :: blocks =>
      have := decidableBlocksValid (block.stop position) blocks
      inferInstanceAs (Decidable (block.Valid position ∧
        (blocks ≠ [] → block.isFinal = false) ∧ BlocksValid (block.stop position) blocks))

end DeflateAtlas.Deflate
