import DeflateAtlas.Proofs.BitSource.Reachable
import DeflateAtlas.Proofs.Huffman.Decoding
import Mathlib.Algebra.Order.Field.Rat
import Mathlib.Data.List.Lex

/-!
# Canonical codes

A code has a table just if its lengths are short enough and their Kraft sum is one,
apart from the two codes that may leave room.  The words are those of RFC 1951, 3.2.2:
the first word of every length follows by a recurrence from the words before, and in the
order of their bits the words are sorted by length and then by symbol.  A table finds
a symbol wherever its word comes next, and if the words fill the code space it can only
fail where the data ends within a word.
-/

namespace DeflateAtlas.Huffman

open BitSource

variable {lengths : List Nat}

/-! ## The Kraft sum -/

/-- The part of the code space that words take: half of it for one bit, and half as much for every
further bit. -/
def kraftSum (lengths : List Nat) : ℚ :=
  ((lengths.filter (0 < ·)).map fun length => (2⁻¹ : ℚ) ^ length).sum

theorem kraftSum_cons (length : Nat) (lengths : List Nat) :
    kraftSum (length :: lengths) =
      (if 0 < length then 2⁻¹ ^ length else 0) + kraftSum lengths := by
  by_cases positive : 0 < length
  · simp [kraftSum, positive]
  · simp [kraftSum, positive]

/-- So many words of `width` bits begin with a given word of `length` bits. -/
theorem two_pow_sub_eq {length width : Nat} (inside : length ≤ width) :
    (2 : ℚ) ^ (width - length) = 2⁻¹ ^ length * 2 ^ width := by
  have halved : (2⁻¹ : ℚ) ^ length * 2 ^ length = 1 := by
    rw [← mul_pow, inv_mul_cancel₀ two_ne_zero, one_pow]
  calc
    (2 : ℚ) ^ (width - length) = 2⁻¹ ^ length * 2 ^ length * 2 ^ (width - length) := by
      rw [halved, one_mul]
    _ = 2⁻¹ ^ length * 2 ^ width := by
      rw [mul_assoc, ← pow_add, Nat.add_sub_cancel' inside]

/-- The words of `width` bits that begin with a code word are this part of them all. -/
theorem occupied_eq_kraftSum {width : Nat} (short : ∀ length ∈ lengths, length ≤ width) :
    (occupied lengths width : ℚ) = kraftSum lengths * 2 ^ width := by
  induction lengths with
  | nil => simp [occupied, kraftSum]
  | cons length lengths ih =>
      obtain ⟨inside, others⟩ := List.forall_mem_cons.mp short
      have rest := ih others
      simp only [occupied, List.map_cons, List.sum_cons] at rest ⊢
      rw [kraftSum_cons, add_mul, Nat.cast_add, rest]
      by_cases positive : 0 < length
      · rw [if_pos ⟨positive, inside⟩, if_pos positive, Nat.cast_pow, Nat.cast_ofNat,
          two_pow_sub_eq inside]
      · rw [if_neg fun both => positive both.1, if_neg positive, Nat.cast_zero, zero_mul]

theorem complete_iff_kraftSum :
    Complete lengths ↔ (∀ length ∈ lengths, length ≤ maxLength) ∧ kraftSum lengths = 1 := by
  apply and_congr_right
  intro short
  have whole : (2 : ℚ) ^ maxLength ≠ 0 := pow_ne_zero maxLength two_ne_zero
  rw [← Nat.cast_inj (R := ℚ), occupied_eq_kraftSum short, Nat.cast_pow, Nat.cast_ofNat,
    mul_eq_right₀ whole]

/-! ## The construction of RFC 1951 -/

/-- The first word of every length: twice what follows on the last word of the length before. -/
def nextCode (lengths : List Nat) : Nat → Nat
  | 0 => 0
  | length + 1 => 2 * (nextCode lengths length + if length = 0 then 0 else lengths.count length)

theorem nextCode_succ (lengths : List Nat) (width : Nat) :
    nextCode lengths (width + 1) = 2 * occupied lengths width := by
  induction width with
  | zero => simp [nextCode]
  | succ width ih =>
      rw [nextCode, ih, if_neg (Nat.succ_ne_zero width), occupied_succ]

/-- A symbol has a word in a list of words. -/
def Assigned (words : List CodeWord) (symbol : Nat) (word : CodeWord) : Prop :=
  words[symbol]? = some word ∧ 0 < word.length

/-- What RFC 1951, 3.2.2, asks of the words for a list of lengths. -/
structure IsCanonical (lengths : List Nat) (words : List CodeWord) : Prop where
  lengths_eq : words.map CodeWord.length = lengths
  /-- The words of a length are numbered from the first one on in the order of their symbols. -/
  value_eq : ∀ {symbol word}, Assigned words symbol word →
    word.value = nextCode lengths word.length + (lengths.take symbol).count word.length
  /-- The bits spell the number, and the reversed word has the same bits from the lowest up. -/
  spelled : ∀ {symbol word}, Assigned words symbol word →
    codeValue word.bits = word.value ∧ lowBits word.length word.reversed = word.bits
  /-- Shorter words precede longer ones, and words of a length are in the order of their symbols. -/
  ordered : ∀ {first second firstWord secondWord}, Assigned words first firstWord →
    Assigned words second secondWord →
    (firstWord.bits < secondWord.bits ↔
      firstWord.length < secondWord.length ∨
        firstWord.length = secondWord.length ∧ first < second)
  prefixFree : ∀ {first second firstWord secondWord}, Assigned words first firstWord →
    Assigned words second secondWord → firstWord.bits <+: secondWord.bits → first = second

/-- The numbers that a code and its table are made of have 16 bits. -/
structure NumbersFit (lengths : List Nat) : Prop where
  counts : ∀ count ∈ lengthCounts lengths, count < 2 ^ 16
  total : wordCount lengths < 2 ^ 16
  symbols : ∀ symbol ∈ orderedSymbols lengths, symbol < 2 ^ 16
  /-- This is so even of the number after the last word of a length. -/
  next : ∀ length ≤ maxLength, nextCode lengths length + lengths.count length < 2 ^ 16

theorem codeWords_lengths (lengths : List Nat) :
    (codeWords lengths).map CodeWord.length = lengths := by
  apply List.ext_getElem?
  intro symbol
  simp [codeWords, List.getElem?_mapIdx, Function.comp_def]

theorem Assigned.listed {symbol : Nat} {word : CodeWord}
    (assigned : Assigned (codeWords lengths) symbol word) :
    lengths[symbol]? = some word.length := by
  have same := congrArg (Option.map CodeWord.length) assigned.1
  rwa [← List.getElem?_map, codeWords_lengths] at same

theorem Assigned.getD_eq {symbol : Nat} {word : CodeWord}
    (assigned : Assigned (codeWords lengths) symbol word) :
    lengths.getD symbol 0 = word.length := by
  rw [List.getD_eq_getElem?_getD, assigned.listed, Option.getD_some]

theorem Assigned.hasWord {symbol : Nat} {word : CodeWord}
    (assigned : Assigned (codeWords lengths) symbol word) : HasWord lengths symbol :=
  hasWord_iff.mpr ⟨word.length, assigned.2, assigned.listed⟩

theorem Assigned.bits_eq {symbol : Nat} {word : CodeWord}
    (assigned : Assigned (codeWords lengths) symbol word) :
    word.bits = wordBits lengths symbol := by
  rw [wordBits, List.getD_eq_getElem?_getD, assigned.1, Option.getD_some]

/-! ## The order of the words -/

theorem codeValue_lt (bits : List Bool) : codeValue bits < 2 ^ bits.length := by
  have small := bitsValue_lt bits.reverse
  rwa [List.length_reverse] at small

theorem codeValue_cons (bit : Bool) (bits : List Bool) :
    codeValue (bit :: bits) = 2 ^ bits.length * bit.toNat + codeValue bits := by
  simp [codeValue, bitsValue_append, bitsValue, Nat.add_comm]

/-- Of two words of one length the one with the lower number comes first. -/
theorem lt_of_codeValue_lt {first second : List Bool} (sameLength : first.length = second.length)
    (lower : codeValue first < codeValue second) : first < second := by
  induction first generalizing second with
  | nil =>
      cases second with
      | nil => exact absurd lower (Nat.lt_irrefl _)
      | cons bit second => cases sameLength
  | cons bit first ih =>
      cases second with
      | nil => cases sameLength
      | cons other second =>
          have rest : first.length = second.length := Nat.succ.inj sameLength
          have small := codeValue_lt second
          have others := codeValue_lt first
          rw [codeValue_cons, codeValue_cons, rest] at lower
          rw [List.cons_lt_cons_iff]
          cases bit <;> cases other
          · exact .inr ⟨rfl, ih rest (by simpa using lower)⟩
          · exact .inl (by decide)
          · simp at lower
            omega
          · exact .inr ⟨rfl, ih rest (by simpa using lower)⟩

theorem rank_lt_rank {first second length : Nat} (earlier : first < second)
    (listed : lengths[first]? = some length) (otherListed : lengths[second]? = some length) :
    rank lengths first < rank lengths second := by
  have upTo : lengths.take (first + 1) = lengths.take first ++ [length] := by
    rw [List.take_add_one, listed, Option.toList_some]
  have counted : (lengths.take (first + 1)).count length ≤ (lengths.take second).count length :=
    (List.take_prefix_take_left (by omega)).sublist.count_le length
  rw [upTo, List.count_append, List.count_singleton_self] at counted
  rw [rank_of_listed listed, rank_of_listed otherListed]
  omega

section Words

variable (fits : Fits lengths)
include fits

/-- A word precedes all longer words and those of later symbols. -/
theorem wordBits_lt {first second : Nat} (hasFirst : HasWord lengths first)
    (hasSecond : HasWord lengths second)
    (earlier : lengths.getD first 0 < lengths.getD second 0 ∨
      lengths.getD first 0 = lengths.getD second 0 ∧ first < second) :
    wordBits lengths first < wordBits lengths second := by
  obtain ⟨shorter, positive, listed⟩ := hasWord_iff.mp hasFirst
  obtain ⟨longer, _, otherListed⟩ := hasWord_iff.mp hasSecond
  have short := length_wordBits_of_listed listed
  have long := length_wordBits_of_listed otherListed
  obtain ⟨value, small⟩ := codeValue_wordBits fits listed positive
  rcases earlier with less | ⟨same, earlier⟩
  -- The longer word is beyond all words of the shorter length before its bits are over.
  · rw [← length_wordBits, ← length_wordBits, short, long] at less
    have beyond := occupied_le_codeValue_take fits otherListed less
    have first : wordBits lengths first < (wordBits lengths second).take shorter :=
      lt_of_codeValue_lt (by rw [short, List.length_take, long, Nat.min_eq_left (by omega)])
        (by omega)
    have more := List.Lex.append_right (· < ·) ((wordBits lengths second).drop shorter) first
    rwa [List.take_append_drop] at more
  · rw [← length_wordBits, ← length_wordBits, short, long] at same
    subst same
    have higher := rank_lt_rank earlier listed otherListed
    have otherValue := (codeValue_wordBits fits otherListed positive).1
    exact lt_of_codeValue_lt (short.trans long.symm) (by omega)

theorem wordBits_lt_iff {first second : Nat} (hasFirst : HasWord lengths first)
    (hasSecond : HasWord lengths second) :
    wordBits lengths first < wordBits lengths second ↔
      lengths.getD first 0 < lengths.getD second 0 ∨
        lengths.getD first 0 = lengths.getD second 0 ∧ first < second := by
  constructor
  · intro precedes
    by_contra notEarlier
    have later : first = second ∨ (lengths.getD second 0 < lengths.getD first 0 ∨
        lengths.getD second 0 = lengths.getD first 0 ∧ second < first) := by
      omega
    rcases later with rfl | later
    · exact lt_irrefl _ precedes
    · exact lt_asymm precedes (wordBits_lt fits hasSecond hasFirst later)
  · exact wordBits_lt fits hasFirst hasSecond

theorem Assigned.value_eq {symbol : Nat} {word : CodeWord}
    (assigned : Assigned (codeWords lengths) symbol word) :
    word.value = 2 * occupied lengths (word.length - 1) + rank lengths symbol := by
  have short := fits.1 _ (List.mem_of_getElem? assigned.listed)
  have same := codeWords_getElem? assigned.listed short
  rw [assigned.1, Option.some.injEq] at same
  exact congrArg CodeWord.value same

/-- The words are those of RFC 1951. -/
theorem isCanonical_codeWords : IsCanonical lengths (codeWords lengths) where
  lengths_eq := codeWords_lengths lengths
  value_eq := by
    intro symbol word assigned
    have first := nextCode_succ lengths (word.length - 1)
    rw [Nat.sub_add_cancel assigned.2] at first
    rw [assigned.value_eq fits, first, rank, assigned.getD_eq]
  spelled := by
    intro symbol word assigned
    refine ⟨?_, word.lowBits_reversed⟩
    rw [assigned.bits_eq, assigned.value_eq fits,
      (codeValue_wordBits fits assigned.listed assigned.2).1]
  ordered := by
    intro first second firstWord secondWord assigned otherAssigned
    rw [assigned.bits_eq, otherAssigned.bits_eq,
      wordBits_lt_iff fits assigned.hasWord otherAssigned.hasWord, assigned.getD_eq,
      otherAssigned.getD_eq]
  prefixFree := by
    intro first second firstWord secondWord assigned otherAssigned begins
    rw [assigned.bits_eq, otherAssigned.bits_eq] at begins
    exact eq_of_wordBits_begins fits assigned.hasWord otherAssigned.hasWord begins

theorem numbersFit (few : lengths.length < 2 ^ 16) : NumbersFit lengths where
  counts := by
    intro count member
    obtain ⟨index, -, rfl⟩ := List.mem_map.mp member
    exact Nat.lt_of_le_of_lt List.count_le_length few
  total := by
    rw [wordCount_eq fits.1]
    exact Nat.lt_of_le_of_lt (List.length_filter_le _ _) few
  symbols := by
    intro symbol member
    simp only [orderedSymbols, List.mem_flatMap, List.mem_map, List.mem_filter] at member
    obtain ⟨_, -, ⟨length, _⟩, ⟨listed, -⟩, rfl⟩ := member
    exact Nat.lt_trans (List.snd_lt_of_mem_zipIdx listed) (by simpa using few)
  next := by
    intro length short
    cases length with
    | zero =>
        have counted : lengths.count 0 < 2 ^ 16 := Nat.lt_of_le_of_lt List.count_le_length few
        simpa [nextCode] using counted
    | succ width =>
        -- The words of a length and all before them are words of that many bits.
        have room := fits.occupied_le short
        have widest : 2 ^ (width + 1) ≤ 2 ^ maxLength := Nat.pow_le_pow_right (by decide) short
        rw [nextCode_succ, ← occupied_succ]
        exact Nat.lt_of_le_of_lt (Nat.le_trans room widest) (by decide)

end Words

/-- The code lengths that RFC 1951 gives as an example. -/
example : (codeWords [3, 3, 3, 3, 3, 2, 4, 4]).map CodeWord.value =
    [0b010, 0b011, 0b100, 0b101, 0b110, 0b00, 0b1110, 0b1111] := by
  decide

namespace DecodingTable

/-! ## Where decoding fails -/

section Failing

variable (fits : Fits lengths)
include fits

/-- A walk fails if the bits end first, or where there is room for more words. -/
theorem walkFrom_error {path : List Bool} {number : Nat} (whole : path.length + number = maxLength)
    (beyond : occupied lengths path.length ≤ codeValue path) {source after : BitSource}
    (wellFormed : source.WellFormed) {failure : Failure}
    (failed : walkFrom lengths path number source = .error failure after) :
    failure = .endOfBits ∧ source.remaining < number ∨
      failure = .unassignedCode ∧ occupied lengths maxLength < 2 ^ maxLength := by
  induction number generalizing path source with
  | zero =>
      -- The bits that were read are not a word, and they are one of the words that there could be.
      cases failed
      have small := codeValue_lt path
      rw [Nat.add_zero] at whole
      rw [whole] at beyond small
      exact .inr ⟨rfl, Nat.lt_of_le_of_lt beyond small⟩
  | succ number ih =>
      obtain ⟨next, walks, step⟩ := walkFrom_succ fits whole beyond
      rw [walks] at failed
      rcases bind_eq_error_iff.mp failed with stopped | ⟨bit, middle, run, rest⟩
      · obtain ⟨rfl, few⟩ := getBits_error wellFormed (by decide) stopped
        exact .inl ⟨rfl, by omega⟩
      · obtain ⟨word, ⟨small, rfl⟩, begins, taken⟩ :=
          (reads_getBits (by decide : 1 ≤ 32)).sound wellFormed run
        rcases step bit small with ⟨symbol, resolved, -⟩ | ⟨goesOn, still⟩
        · rw [resolved] at rest
          cases rest
        · rw [goesOn] at rest
          have size : (path ++ [bit.testBit 0]).length + number = maxLength := by
            rw [List.length_append, List.length_singleton]
            omega
          have available := congrArg List.length (taken.bits_eq_append begins)
          rw [List.length_append, length_lowBits, length_bits, length_bits] at available
          exact (ih size still taken.wellFormed rest).imp_left fun ⟨ranOut, few⟩ =>
            ⟨ranOut, by omega⟩

/-- Decoding fails only if the bits end first, or where there is room for more words. -/
theorem decode_error {source after : BitSource} (wellFormed : source.WellFormed)
    {failure : Failure} (failed : (build lengths).decode source = .error failure after) :
    failure = .endOfBits ∧ source.remaining < maxLength ∨
      failure = .unassignedCode ∧ occupied lengths maxLength < 2 ^ maxLength := by
  rcases decode_cases lengths wellFormed with ⟨symbol, reached, run, -⟩ | slow
  · rw [run] at failed
    cases failed
  · have filled := wellFormed.takes_ensure 8
    rw [slow, decodeSlow_eq_walkFrom] at failed
    have walked := walkFrom_error fits (Nat.zero_add maxLength) (by simp) filled.wellFormed failed
    rwa [remaining_ensure] at walked

end Failing

theorem exists_ofLengths_iff {allowIncomplete : Bool} :
    (∃ table, ofLengths lengths allowIncomplete = .ok table) ↔
      (∀ length ∈ lengths, length ≤ maxLength) ∧
        (kraftSum lengths = 1 ∨
          allowIncomplete = true ∧ (Wordless lengths ∨ SingleBit lengths)) := by
  simp only [ofLengths_eq_ok_iff, exists_eq_left]
  constructor
  · intro accepted
    refine ⟨accepted.fits.1, accepted.imp_left fun complete => ?_⟩
    exact (complete_iff_kraftSum.mp complete).2
  · rintro ⟨short, accepted⟩
    exact accepted.imp_left fun whole => complete_iff_kraftSum.mpr ⟨short, whole⟩

/-- A code has a table just if its words fill the code space, or leave room in one of the two ways
that can be allowed; its words are then those of RFC 1951, wherever a word comes next its symbol is
decoded, and with words that fill the code space nothing but the end of the data stops a table.  Up
to 65535 symbols need no number of more than 16 bits. -/
theorem ofLengths_canonical (lengths : List Nat) (allowIncomplete : Bool) :
    ((∃ table, ofLengths lengths allowIncomplete = .ok table) ↔
      (∀ length ∈ lengths, length ≤ maxLength) ∧
        (kraftSum lengths = 1 ∨
          allowIncomplete = true ∧ (Wordless lengths ∨ SingleBit lengths))) ∧
    ∀ table, ofLengths lengths allowIncomplete = .ok table →
      IsCanonical lengths (codeWords lengths) ∧
      (∀ source symbol word, source.Reachable → Assigned (codeWords lengths) symbol word →
        word.bits <+: source.bits →
        ∃ after, table.decode source = .ok symbol after ∧ Takes source after word.length) ∧
      (kraftSum lengths = 1 → ∀ source after failure, source.Reachable →
        table.decode source = .error failure after →
        failure.kind = .shortRead ∧ source.remaining < maxLength) ∧
      (lengths.length < 2 ^ 16 → NumbersFit lengths) := by
  refine ⟨exists_ofLengths_iff, fun table built => ?_⟩
  obtain ⟨rfl, accepted⟩ := ofLengths_eq_ok_iff.mp built
  have fits := accepted.fits
  refine ⟨isCanonical_codeWords fits, ?_, ?_, numbersFit fits⟩
  · intro source symbol word reachable assigned begins
    obtain ⟨after, run, taken⟩ :=
      (reads_decode fits).complete reachable.wellFormed ⟨assigned.hasWord, assigned.bits_eq⟩ begins
    rw [word.length_bits] at taken
    exact ⟨after, run, taken⟩
  · intro whole source after failure reachable failed
    have complete := complete_iff_kraftSum.mpr ⟨fits.1, whole⟩
    rcases decode_error fits reachable.wellFormed failed with ⟨rfl, few⟩ | ⟨-, room⟩
    · exact ⟨rfl, few⟩
    · exact absurd complete.2 (Nat.ne_of_lt room)

end DecodingTable

end DeflateAtlas.Huffman
