import DeflateAtlas.Proofs.Huffman.CodeSpace

/-!
# The words of a canonical code

A word of `length` bits spells a number between twice the space occupied by
shorter words and the space occupied by words up to its own length.  So no
word begins with another one, and the symbols in the order of their words are
found by length and rank.
-/

namespace DeflateAtlas.Huffman

/-- The number that bits spell when the first one counts most. -/
def codeValue (bits : List Bool) : Nat :=
  bitsValue bits.reverse

@[simp]
theorem codeValue_nil : codeValue [] = 0 :=
  rfl

theorem codeValue_concat (bits : List Bool) (bit : Bool) :
    codeValue (bits ++ [bit]) = 2 * codeValue bits + bit.toNat := by
  simp [codeValue, bitsValue, Nat.add_comm]

theorem codeValue_concat_testBit (bits : List Bool) {bit : Nat} (small : bit < 2) :
    codeValue (bits ++ [bit.testBit 0]) = 2 * codeValue bits + bit := by
  rw [codeValue_concat]
  have cases : bit = 0 ∨ bit = 1 := by omega
  rcases cases with rfl | rfl <;> rfl

theorem CodeWord.reversed_lt (word : CodeWord) : word.reversed < 2 ^ word.length := by
  have small := bitsValue_lt word.bits
  rwa [word.length_bits] at small

theorem CodeWord.lowBits_reversed (word : CodeWord) :
    lowBits word.length word.reversed = word.bits := by
  have spelled := lowBits_bitsValue word.bits
  rwa [word.length_bits] at spelled

theorem codeValue_take (bits : List Bool) {number : Nat} (inside : number ≤ bits.length) :
    codeValue (bits.take number) = codeValue bits / 2 ^ (bits.length - number) := by
  have small := bitsValue_lt bits.reverse
  have digits := lowBits_bitsValue bits.reverse
  rw [List.length_reverse] at small digits
  have first : (bits.take number).reverse =
      lowBits number (bitsValue bits.reverse / 2 ^ (bits.length - number)) := by
    rw [List.reverse_take, ← digits, drop_lowBits (Nat.sub_le _ _), Nat.sub_sub_self inside,
      bitsValue_lowBits, Nat.mod_eq_of_lt small]
  have bound : bitsValue bits.reverse / 2 ^ (bits.length - number) < 2 ^ number := by
    apply Nat.div_lt_of_lt_mul
    rwa [← Nat.pow_add, Nat.sub_add_cancel inside]
  rw [codeValue, first, bitsValue_lowBits, Nat.mod_eq_of_lt bound]
  rfl

theorem codeValue_injective {first second : List Bool}
    (sameLength : first.length = second.length)
    (sameValue : codeValue first = codeValue second) : first = second := by
  have digits := lowBits_bitsValue first.reverse
  have others := lowBits_bitsValue second.reverse
  simp only [codeValue] at sameValue
  rw [List.length_reverse] at digits others
  rw [sameValue, sameLength, others] at digits
  exact (List.reverse_inj.mp digits).symm

/-! ## Words by symbol -/

/-- A symbol has a code word. -/
def HasWord (lengths : List Nat) (symbol : Nat) : Prop :=
  0 < lengths.getD symbol 0

instance (lengths : List Nat) (symbol : Nat) : Decidable (HasWord lengths symbol) :=
  inferInstanceAs (Decidable (0 < lengths.getD symbol 0))

/-- The bits of the word of a symbol in the order of the data, none if it has no word. -/
def wordBits (lengths : List Nat) (symbol : Nat) : List Bool :=
  ((codeWords lengths).getD symbol ⟨0, 0⟩).bits

/-- How many earlier symbols have words of the same length. -/
def rank (lengths : List Nat) (symbol : Nat) : Nat :=
  (lengths.take symbol).count (lengths.getD symbol 0)

theorem hasWord_iff {lengths : List Nat} {symbol : Nat} :
    HasWord lengths symbol ↔ ∃ length, 0 < length ∧ lengths[symbol]? = some length := by
  unfold HasWord
  rw [List.getD_eq_getElem?_getD]
  cases listed : lengths[symbol]? with
  | none => simp
  | some length => simp

theorem codeWords_getElem? {lengths : List Nat} {symbol length : Nat}
    (listed : lengths[symbol]? = some length) (short : length ≤ maxLength) :
    (codeWords lengths)[symbol]? =
      some ⟨length, 2 * occupied lengths (length - 1) + rank lengths symbol⟩ := by
  have inside : length - 1 < maxLength := by
    have positive : 0 < maxLength := by decide
    omega
  have first := firstWords_getD lengths inside
  simp only [codeWords, List.getElem?_mapIdx, listed, Option.map_some, first, rank,
    List.getD_eq_getElem?_getD, Option.getD_some]

theorem wordBits_of_listed {lengths : List Nat} {symbol length : Nat}
    (listed : lengths[symbol]? = some length) (short : length ≤ maxLength) :
    wordBits lengths symbol =
      CodeWord.bits ⟨length, 2 * occupied lengths (length - 1) + rank lengths symbol⟩ := by
  rw [wordBits, List.getD_eq_getElem?_getD, codeWords_getElem? listed short, Option.getD_some]

@[simp]
theorem length_wordBits (lengths : List Nat) (symbol : Nat) :
    (wordBits lengths symbol).length = lengths.getD symbol 0 := by
  simp only [wordBits, CodeWord.length_bits, List.getD_eq_getElem?_getD, codeWords,
    List.getElem?_mapIdx]
  cases lengths[symbol]? with
  | none => rfl
  | some length => rfl

theorem length_wordBits_of_listed {lengths : List Nat} {symbol length : Nat}
    (listed : lengths[symbol]? = some length) : (wordBits lengths symbol).length = length := by
  rw [length_wordBits, List.getD_eq_getElem?_getD, listed, Option.getD_some]

theorem rank_of_listed {lengths : List Nat} {symbol length : Nat}
    (listed : lengths[symbol]? = some length) :
    rank lengths symbol = (lengths.take symbol).count length := by
  rw [rank, List.getD_eq_getElem?_getD, listed, Option.getD_some]

theorem rank_lt {lengths : List Nat} {symbol length : Nat}
    (listed : lengths[symbol]? = some length) : rank lengths symbol < lengths.count length := by
  obtain ⟨inside, value⟩ := List.getElem?_eq_some_iff.mp listed
  have split : lengths = lengths.take symbol ++ length :: lengths.drop (symbol + 1) := by
    rw [← value, ← List.drop_eq_getElem_cons inside, List.take_append_drop]
  have all : lengths.count length =
      (lengths.take symbol).count length + ((lengths.drop (symbol + 1)).count length + 1) := by
    conv => lhs; rw [split]
    rw [List.count_append, List.count_cons_self]
  rw [rank_of_listed listed]
  omega

section Words

variable {lengths : List Nat} (fits : Fits lengths)
include fits

/-- The range of the numbers that words of one length spell. -/
theorem codeValue_wordBits {symbol length : Nat} (listed : lengths[symbol]? = some length)
    (positive : 0 < length) :
    codeValue (wordBits lengths symbol) =
        2 * occupied lengths (length - 1) + rank lengths symbol ∧
      codeValue (wordBits lengths symbol) < occupied lengths length := by
  have short : length ≤ maxLength := fits.1 length (List.mem_of_getElem? listed)
  have below := rank_lt listed
  have grows := occupied_succ lengths (length - 1)
  rw [Nat.sub_add_cancel positive] at grows
  have room := fits.occupied_le short
  have value : codeValue (wordBits lengths symbol) =
      2 * occupied lengths (length - 1) + rank lengths symbol := by
    rw [wordBits_of_listed listed short, codeValue, CodeWord.bits, List.reverse_reverse,
      bitsValue_lowBits, Nat.mod_eq_of_lt (by dsimp only; omega)]
  refine ⟨value, ?_⟩
  omega

/-- The first bits of a word, short of the whole, lie beyond all words of their length. -/
theorem occupied_le_codeValue_take {symbol length number : Nat}
    (listed : lengths[symbol]? = some length) (inside : number < length) :
    occupied lengths number ≤ codeValue ((wordBits lengths symbol).take number) := by
  have whole := length_wordBits_of_listed listed
  have value := (codeValue_wordBits fits listed (by omega)).1
  have scaled := occupied_scale lengths number (length - 1 - number)
  rw [Nat.add_sub_cancel' (by omega)] at scaled
  rw [codeValue_take _ (by omega), whole, Nat.le_div_iff_mul_le (Nat.two_pow_pos _)]
  have further : length - number = length - 1 - number + 1 := by omega
  calc
    occupied lengths number * 2 ^ (length - number) =
        2 * (occupied lengths number * 2 ^ (length - 1 - number)) := by
      rw [further, Nat.pow_succ, Nat.mul_comm (2 ^ _) 2, Nat.mul_left_comm]
    _ ≤ 2 * occupied lengths (length - 1) := Nat.mul_le_mul_left 2 scaled
    _ ≤ codeValue (wordBits lengths symbol) := by
      rw [value]
      exact Nat.le_add_right _ _

end Words

/-! ## Symbols in the order of their words -/

/-- The symbols whose words have a given length, in order. -/
def symbolsOfLength (lengths : List Nat) (length : Nat) : List Nat :=
  (lengths.zipIdx.filter fun (listed, _) => listed == length).map Prod.snd

@[simp]
theorem length_symbolsOfLength (lengths : List Nat) (length : Nat) :
    (symbolsOfLength lengths length).length = lengths.count length := by
  have counted (start : Nat) :
      ((lengths.zipIdx start).filter fun (listed, _) => listed == length).length =
        lengths.count length := by
    induction lengths generalizing start with
    | nil => rfl
    | cons listed lengths ih =>
        simp only [List.zipIdx_cons, List.filter_cons, List.count_cons]
        by_cases same : listed == length
        · simp [same, ih]
        · simp [same, ih]
  rw [symbolsOfLength, List.length_map, counted 0]

theorem symbolsOfLength_rank {lengths : List Nat} {symbol length : Nat}
    (listed : lengths[symbol]? = some length) :
    (symbolsOfLength lengths length)[rank lengths symbol]? = some symbol := by
  obtain ⟨inside, value⟩ := List.getElem?_eq_some_iff.mp listed
  have split : lengths = lengths.take symbol ++ length :: lengths.drop (symbol + 1) := by
    rw [← value, ← List.drop_eq_getElem_cons inside, List.take_append_drop]
  have before : (symbolsOfLength (lengths.take symbol) length).length = rank lengths symbol := by
    rw [length_symbolsOfLength, rank_of_listed listed]
  have apart : symbolsOfLength lengths length =
      symbolsOfLength (lengths.take symbol) length ++
        symbol :: (((lengths.drop (symbol + 1)).zipIdx (symbol + 1)).filter
          fun (listed, _) => listed == length).map Prod.snd := by
    have size : (lengths.take symbol).length = symbol := by
      rw [List.length_take, Nat.min_eq_left (Nat.le_of_lt inside)]
    conv => lhs; rw [split]
    simp [symbolsOfLength, List.zipIdx_append, List.zipIdx_cons, size]
  rw [apart, List.getElem?_append_right (by omega), before, Nat.sub_self]
  rfl

/-- The symbols of one length have that length, and stand at their ranks. -/
theorem listed_of_symbolsOfLength {lengths : List Nat} {length index symbol : Nat}
    (found : (symbolsOfLength lengths length)[index]? = some symbol) :
    lengths[symbol]? = some length ∧ rank lengths symbol = index := by
  have member := List.mem_of_getElem? found
  simp only [symbolsOfLength, List.mem_map, List.mem_filter, beq_iff_eq] at member
  obtain ⟨⟨listed, _⟩, ⟨inside, rfl⟩, rfl⟩ := member
  rw [List.mem_zipIdx_iff_getElem?] at inside
  refine ⟨inside, ?_⟩
  have distinct : (symbolsOfLength lengths listed).Nodup := by
    have sub : (symbolsOfLength lengths listed).Sublist (lengths.zipIdx.map Prod.snd) :=
      List.filter_sublist.map _
    rw [List.zipIdx_map_snd] at sub
    exact sub.nodup List.nodup_range'
  have here := symbolsOfLength_rank inside
  obtain ⟨first, firstValue⟩ := List.getElem?_eq_some_iff.mp here
  obtain ⟨second, secondValue⟩ := List.getElem?_eq_some_iff.mp found
  exact (List.getElem_inj distinct).mp (firstValue.trans secondValue.symm)

/-- The number of symbols whose words have at most `width` bits. -/
def ranked (lengths : List Nat) (width : Nat) : Nat :=
  ((List.range width).map fun index => lengths.count (index + 1)).sum

theorem ranked_succ (lengths : List Nat) (width : Nat) :
    ranked lengths (width + 1) = ranked lengths width + lengths.count (width + 1) := by
  simp [ranked, List.range_succ]

/-- Among all symbols those of one length come together, after all shorter ones. -/
theorem orderedSymbols_getElem? {lengths : List Nat} {width index : Nat}
    (inside : width < maxLength) (below : index < lengths.count (width + 1)) :
    (orderedSymbols lengths)[ranked lengths width + index]? =
      (symbolsOfLength lengths (width + 1))[index]? := by
  have split : List.range maxLength =
      List.range width ++ width :: List.range' (width + 1) (maxLength - width - 1) := by
    have joined := List.range'_append_1 (s := 0) (m := width) (n := maxLength - width - 1 + 1)
    rw [Nat.zero_add] at joined
    rw [← List.range'_succ, List.range_eq_range', List.range_eq_range', joined]
    congr 1
    omega
  have before : ((List.range width).flatMap fun index =>
      symbolsOfLength lengths (index + 1)).length = ranked lengths width := by
    simp [ranked, List.length_flatMap]
  have apart : orderedSymbols lengths =
      ((List.range width).flatMap fun index => symbolsOfLength lengths (index + 1)) ++
        (symbolsOfLength lengths (width + 1) ++
          (List.range' (width + 1) (maxLength - width - 1)).flatMap
            fun index => symbolsOfLength lengths (index + 1)) := by
    rw [orderedSymbols, split, List.flatMap_append, List.flatMap_cons]
    rfl
  rw [apart, List.getElem?_append_right (by omega), before, Nat.add_sub_cancel_left,
    List.getElem?_append_left (by rwa [length_symbolsOfLength])]

/-- No word begins with another one. -/
theorem eq_of_wordBits_begins {lengths : List Nat} (fits : Fits lengths) {first second : Nat}
    (hasFirst : HasWord lengths first) (hasSecond : HasWord lengths second)
    (begins : wordBits lengths first <+: wordBits lengths second) : first = second := by
  obtain ⟨shorter, positive, listed⟩ := hasWord_iff.mp hasFirst
  obtain ⟨longer, _, otherListed⟩ := hasWord_iff.mp hasSecond
  have short := length_wordBits_of_listed listed
  have long := length_wordBits_of_listed otherListed
  have ordered := begins.length_le
  have taken : wordBits lengths first = (wordBits lengths second).take shorter := by
    rw [← short]
    exact List.prefix_iff_eq_take.mp begins
  obtain ⟨value, small⟩ := codeValue_wordBits fits listed positive
  rcases Nat.lt_or_ge shorter longer with less | same
  · have beyond := occupied_le_codeValue_take fits otherListed less
    rw [← taken] at beyond
    omega
  · have equal : shorter = longer := by omega
    subst equal
    have whole : wordBits lengths first = wordBits lengths second := by
      rw [taken, List.take_of_length_le (by omega)]
    obtain ⟨otherValue, _⟩ := codeValue_wordBits fits otherListed positive
    rw [whole, otherValue] at value
    have sameRank : rank lengths first = rank lengths second := by omega
    have place := symbolsOfLength_rank listed
    rw [sameRank, symbolsOfLength_rank otherListed] at place
    exact (Option.some.inj place).symm

end DeflateAtlas.Huffman
