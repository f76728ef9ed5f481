import DeflateAtlas.Bits

/-!
# Canonical Huffman codes

A canonical code is given by the length of the code word of every symbol, zero
for a symbol that has none (RFC 1951, 3.2.2).  Words of one length are
consecutive numbers in the order of their symbols, and the words of a greater
length start where the shorter ones leave room.  `codeWords` lists the words;
in the data the most significant bit of a word comes first.
-/

namespace DeflateAtlas.Huffman

/-- No code word is longer than this. -/
def maxLength : Nat := 15

/-- How many symbols have a word of each length from 1 to 15. -/
def lengthCounts (lengths : List Nat) : List Nat :=
  (List.range maxLength).map fun index => lengths.count (index + 1)

/-- How many symbols have a word. -/
def wordCount (lengths : List Nat) : Nat :=
  (lengthCounts lengths).foldr (· + ·) 0

/-- The first word of each length, for the lengths that `counts` speaks of, when the first word
of the least of them is `first`. -/
def firstWords : (counts : List Nat) → (first : Nat) → List Nat
  | [], _ => []
  | count :: counts, first => first :: firstWords counts (2 * (first + count))

/-- The word of a symbol: `length` bits that spell the number `value`. -/
structure CodeWord where
  length : Nat
  value : Nat
  deriving DecidableEq, Repr

/-- The bits of a word in the order in which they appear in the data. -/
def CodeWord.bits (word : CodeWord) : List Bool :=
  (lowBits word.length word.value).reverse

/-- The bits of a word as a number, the first bit in the data lowest. -/
def CodeWord.reversed (word : CodeWord) : Nat :=
  bitsValue word.bits

/-- The words of all symbols; the word of a symbol without one has length zero. -/
def codeWords (lengths : List Nat) : List CodeWord :=
  let firsts := (firstWords (lengthCounts lengths) 0).toArray
  lengths.mapIdx fun symbol length =>
    ⟨length, firsts.getD (length - 1) 0 + (lengths.take symbol).count length⟩

/-- The symbols that have a word, those with shorter words first. -/
def orderedSymbols (lengths : List Nat) : List Nat :=
  (List.range maxLength).flatMap fun index =>
    (lengths.zipIdx.filter fun (length, _) => length == index + 1).map Prod.snd

/-- How many further words of the greatest length would fit, or nothing if there are too many
words already.  Each further bit doubles the `room` that is left. -/
def roomLeft : (counts : List Nat) → (room : Nat) → Option Nat
  | [], room => some room
  | count :: counts, room =>
      if 2 * room < count then none else roomLeft counts (2 * room - count)

@[simp]
theorem length_lengthCounts (lengths : List Nat) : (lengthCounts lengths).length = maxLength := by
  simp [lengthCounts]

@[simp]
theorem length_codeWords (lengths : List Nat) : (codeWords lengths).length = lengths.length := by
  simp [codeWords]

@[simp]
theorem CodeWord.length_bits (word : CodeWord) : word.bits.length = word.length := by
  simp [CodeWord.bits]

end DeflateAtlas.Huffman
