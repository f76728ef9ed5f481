/-!
# The alphabets of deflate

Literals, the end of a block and the lengths of references share one alphabet,
distances have another, and the code lengths of a dynamic block are themselves
coded with a third (RFC 1951, 3.2.5 and 3.2.7).  Lengths and distances come in
ranges: a symbol stands for the least number of its range and is followed by
extra bits that are added to it.
-/

namespace DeflateAtlas.Deflate

/-- The symbol that ends a block. -/
def endOfBlock : Nat := 256

/-- The least symbol that stands for a length. -/
def firstLengthSymbol : Nat := 257

/-- The shortest reference. -/
def minMatch : Nat := 3

/-- The longest reference. -/
def maxMatch : Nat := 258

/-- The numbers a symbol stands for: the least of them, and how many extra bits follow. -/
structure NumberRange where
  base : Nat
  extraBits : Nat
  deriving DecidableEq, Repr

/-- The lengths that symbols 257 to 285 stand for. -/
def lengthRanges : Array NumberRange :=
  #[⟨3, 0⟩, ⟨4, 0⟩, ⟨5, 0⟩, ⟨6, 0⟩, ⟨7, 0⟩, ⟨8, 0⟩, ⟨9, 0⟩, ⟨10, 0⟩,
    ⟨11, 1⟩, ⟨13, 1⟩, ⟨15, 1⟩, ⟨17, 1⟩, ⟨19, 2⟩, ⟨23, 2⟩, ⟨27, 2⟩, ⟨31, 2⟩,
    ⟨35, 3⟩, ⟨43, 3⟩, ⟨51, 3⟩, ⟨59, 3⟩, ⟨67, 4⟩, ⟨83, 4⟩, ⟨99, 4⟩, ⟨115, 4⟩,
    ⟨131, 5⟩, ⟨163, 5⟩, ⟨195, 5⟩, ⟨227, 5⟩, ⟨258, 0⟩]

/-- The distances that symbols 0 to 29 stand for. -/
def distanceRanges : Array NumberRange :=
  #[⟨1, 0⟩, ⟨2, 0⟩, ⟨3, 0⟩, ⟨4, 0⟩, ⟨5, 1⟩, ⟨7, 1⟩, ⟨9, 2⟩, ⟨13, 2⟩,
    ⟨17, 3⟩, ⟨25, 3⟩, ⟨33, 4⟩, ⟨49, 4⟩, ⟨65, 5⟩, ⟨97, 5⟩, ⟨129, 6⟩, ⟨193, 6⟩,
    ⟨257, 7⟩, ⟨385, 7⟩, ⟨513, 8⟩, ⟨769, 8⟩, ⟨1025, 9⟩, ⟨1537, 9⟩, ⟨2049, 10⟩, ⟨3073, 10⟩,
    ⟨4097, 11⟩, ⟨6145, 11⟩, ⟨8193, 12⟩, ⟨12289, 12⟩, ⟨16385, 13⟩, ⟨24577, 13⟩]

/-- Ranges that follow one another from a number on, given how many extra bits each has. -/
def NumberRange.consecutive : (start : Nat) → (extraBits : List Nat) → List NumberRange
  | _, [] => []
  | start, extraBits :: others =>
      ⟨start, extraBits⟩ :: consecutive (start + 2 ^ extraBits) others

/-- The table of RFC 1951: eight lengths have symbols of their own, four symbols each have 1 to 5
extra bits, and the greatest length has a symbol besides. -/
theorem lengthRanges_eq :
    lengthRanges.toList = NumberRange.consecutive 3 [0, 0, 0, 0, 0, 0, 0, 0, 1, 1, 1, 1,
      2, 2, 2, 2, 3, 3, 3, 3, 4, 4, 4, 4, 5, 5, 5, 5] ++ [⟨258, 0⟩] :=
  rfl

/-- The table of RFC 1951: four distances have symbols of their own, and two symbols each have 1 to
13 extra bits. -/
theorem distanceRanges_eq :
    distanceRanges.toList = NumberRange.consecutive 1 [0, 0, 0, 0, 1, 1, 2, 2, 3, 3, 4, 4, 5, 5,
      6, 6, 7, 7, 8, 8, 9, 9, 10, 10, 11, 11, 12, 12, 13, 13] :=
  rfl

/-- The last symbol for a length, which stands for 258 alone. -/
def maxMatchSymbol : Nat := 285

/-- The symbols of the code length alphabet in the order in which their lengths are sent. -/
def codeLengthOrder : List Nat :=
  [16, 17, 18, 0, 8, 7, 9, 6, 10, 5, 11, 4, 12, 3, 13, 2, 14, 1, 15]

/-- Repetitions come first, then symbols without a word, then the lengths from 8 outwards. -/
example :
    codeLengthOrder =
      [16, 17, 18, 0, 8] ++ (List.range 7).flatMap fun step => [7 - step, 9 + step] := by
  decide

/-- The code lengths of the literal alphabet in a fixed block (RFC 1951, 3.2.6). -/
def fixedLiteralLengths : List Nat :=
  List.replicate 144 8 ++ List.replicate 112 9 ++ List.replicate 24 7 ++ List.replicate 8 8

/-- The code lengths of the distance alphabet in a fixed block (RFC 1951, 3.2.6). -/
def fixedDistanceLengths : List Nat :=
  List.replicate 32 5

/-- What a block is made of. -/
inductive BlockKind
  | stored
  | fixed
  | dynamic
  deriving DecidableEq, Repr

namespace BlockKind

/-- The number that stands for a kind of block in its header. -/
def number : BlockKind → Nat
  | .stored => 0
  | .fixed => 1
  | .dynamic => 2

/-- The kind of block a number stands for; 3 is reserved. -/
def ofNumber? : Nat → Option BlockKind
  | 0 => some .stored
  | 1 => some .fixed
  | 2 => some .dynamic
  | _ => none

theorem ofNumber?_eq_some_iff {number : Nat} {kind : BlockKind} :
    ofNumber? number = some kind ↔ kind.number = number := by
  constructor
  · intro found
    unfold ofNumber? at found
    split at found <;> cases found <;> rfl
  · rintro rfl
    cases kind <;> rfl

end BlockKind

end DeflateAtlas.Deflate
