import DeflateAtlas.Huffman.DecodingTable
import DeflateAtlas.Proofs.Bits

/-!
# The code space of a canonical code

`occupied lengths width` counts the words of `width` bits that begin with a
code word.  It doubles with every further bit and grows by the number of code
words that end there, so it is the Kraft sum of the code in units of one word
of `width` bits.  The canonical construction starts the words of every length
right above the space that the shorter words occupy, and the room that a table
finds left is what is not occupied.
-/

namespace DeflateAtlas.Huffman

/-- The number of words of `width` bits that begin with a code word of at most that length. -/
def occupied (lengths : List Nat) (width : Nat) : Nat :=
  (lengths.map fun length =>
    if 0 < length ∧ length ≤ width then 2 ^ (width - length) else 0).sum

@[simp]
theorem occupied_zero (lengths : List Nat) : occupied lengths 0 = 0 := by
  induction lengths with
  | nil => rfl
  | cons length lengths ih =>
      have none : ¬ (0 < length ∧ length ≤ 0) := by omega
      simp only [occupied, List.map_cons, List.sum_cons] at ih ⊢
      rw [ih, if_neg none]

theorem occupied_succ (lengths : List Nat) (width : Nat) :
    occupied lengths (width + 1) =
      2 * occupied lengths width + lengths.count (width + 1) := by
  induction lengths with
  | nil => rfl
  | cons length lengths ih =>
      have here : (if 0 < length ∧ length ≤ width + 1 then 2 ^ (width + 1 - length) else 0) =
          2 * (if 0 < length ∧ length ≤ width then 2 ^ (width - length) else 0) +
            if length = width + 1 then 1 else 0 := by
        by_cases ends : length = width + 1
        · have new : ¬ width + 1 ≤ width := by omega
          subst length
          simp [new]
        · by_cases shorter : 0 < length ∧ length ≤ width
          · have further : width + 1 - length = width - length + 1 := by omega
            have longer : 0 < length ∧ length ≤ width + 1 := by omega
            simp only [shorter, longer, and_self, ends, if_true, if_false, further,
              Nat.pow_succ, Nat.mul_comm, Nat.add_zero]
          · have outside : ¬ (0 < length ∧ length ≤ width + 1) := by omega
            simp [shorter, outside, ends]
      simp only [occupied, List.map_cons, List.sum_cons] at ih ⊢
      rw [here, ih, List.count_cons]
      simp only [beq_iff_eq]
      omega

/-- What is occupied stays occupied when words get longer. -/
theorem occupied_scale (lengths : List Nat) (width further : Nat) :
    occupied lengths width * 2 ^ further ≤ occupied lengths (width + further) := by
  induction further with
  | zero => simp
  | succ further ih =>
      calc
        occupied lengths width * 2 ^ (further + 1) =
            2 * (occupied lengths width * 2 ^ further) := by
          rw [Nat.pow_succ, Nat.mul_comm (2 ^ further) 2, Nat.mul_left_comm]
        _ ≤ 2 * occupied lengths (width + further) := Nat.mul_le_mul_left 2 ih
        _ ≤ occupied lengths (width + (further + 1)) := by
          rw [← Nat.add_assoc, occupied_succ]
          exact Nat.le_add_right _ _

/-- The words do not take more than the whole code space. -/
def Fits (lengths : List Nat) : Prop :=
  (∀ length ∈ lengths, length ≤ maxLength) ∧ occupied lengths maxLength ≤ 2 ^ maxLength

theorem Fits.occupied_le {lengths : List Nat} (fits : Fits lengths) {width : Nat}
    (inside : width ≤ maxLength) : occupied lengths width ≤ 2 ^ width := by
  have scaled := occupied_scale lengths width (maxLength - width)
  rw [Nat.add_sub_cancel' inside] at scaled
  have whole : 2 ^ maxLength = 2 ^ width * 2 ^ (maxLength - width) := by
    rw [← Nat.pow_add, Nat.add_sub_cancel' inside]
  have bounded : occupied lengths width * 2 ^ (maxLength - width) ≤
      2 ^ width * 2 ^ (maxLength - width) := by
    rw [← whole]
    exact Nat.le_trans scaled fits.2
  exact Nat.le_of_mul_le_mul_right bounded (Nat.two_pow_pos _)

/-- The words fill the whole code space: the Kraft sum is one. -/
def Complete (lengths : List Nat) : Prop :=
  (∀ length ∈ lengths, length ≤ maxLength) ∧ occupied lengths maxLength = 2 ^ maxLength

theorem Complete.fits {lengths : List Nat} (complete : Complete lengths) : Fits lengths :=
  ⟨complete.1, Nat.le_of_eq complete.2⟩

/-- No symbol has a word. -/
def Wordless (lengths : List Nat) : Prop :=
  ∀ length ∈ lengths, length = 0

/-- A single symbol has a word, of one bit. -/
def SingleBit (lengths : List Nat) : Prop :=
  lengths.filter (0 < ·) = [1]

instance (lengths : List Nat) : Decidable (Complete lengths) :=
  inferInstanceAs (Decidable ((∀ length ∈ lengths, length ≤ maxLength) ∧ _))

instance (lengths : List Nat) : Decidable (Wordless lengths) :=
  inferInstanceAs (Decidable (∀ length ∈ lengths, length = 0))

instance (lengths : List Nat) : Decidable (SingleBit lengths) :=
  inferInstanceAs (Decidable (lengths.filter (0 < ·) = [1]))

/-! ## The canonical construction -/

/-- The words of each length start at twice the space that shorter words occupy. -/
theorem firstWords_eq (lengths : List Nat) (start number : Nat) :
    firstWords ((List.range' start number).map fun index => lengths.count (index + 1))
        (2 * occupied lengths start) =
      (List.range' start number).map fun index => 2 * occupied lengths index := by
  induction number generalizing start with
  | zero => rfl
  | succ number ih =>
      simp only [List.range'_succ, List.map_cons, firstWords]
      rw [← occupied_succ, ih]

theorem firstWords_getD (lengths : List Nat) {index : Nat} (inside : index < maxLength) :
    (firstWords (lengthCounts lengths) 0).toArray.getD index 0 = 2 * occupied lengths index := by
  have all := firstWords_eq lengths 0 maxLength
  rw [occupied_zero, Nat.mul_zero, ← List.range_eq_range'] at all
  rw [lengthCounts, all]
  simp [inside]

/-- The room that is left is what is not occupied, if nothing is occupied twice. -/
theorem roomLeft_eq (lengths : List Nat) (start number : Nat)
    (before : occupied lengths start ≤ 2 ^ start) :
    roomLeft ((List.range' start number).map fun index => lengths.count (index + 1))
        (2 ^ start - occupied lengths start) =
      if occupied lengths (start + number) ≤ 2 ^ (start + number) then
        some (2 ^ (start + number) - occupied lengths (start + number))
      else
        none := by
  induction number generalizing start with
  | zero => simp [roomLeft, before]
  | succ number ih =>
      have next := occupied_succ lengths start
      have power : 2 ^ (start + 1) = 2 * 2 ^ start := Nat.pow_succ'
      simp only [List.range'_succ, List.map_cons, roomLeft]
      by_cases crowded : 2 * (2 ^ start - occupied lengths start) < lengths.count (start + 1)
      · have full : 2 ^ (start + 1) < occupied lengths (start + 1) := by omega
        have scaled := occupied_scale lengths (start + 1) number
        have beyond : 2 ^ (start + 1 + number) < occupied lengths (start + 1 + number) := by
          rw [Nat.pow_add]
          exact Nat.lt_of_lt_of_le
            (Nat.mul_lt_mul_of_pos_right full (Nat.two_pow_pos number)) scaled
        rw [if_pos crowded, ← Nat.add_assoc, Nat.add_right_comm, if_neg (Nat.not_le.mpr beyond)]
      · have inside : occupied lengths (start + 1) ≤ 2 ^ (start + 1) := by omega
        have room : 2 * (2 ^ start - occupied lengths start) - lengths.count (start + 1) =
            2 ^ (start + 1) - occupied lengths (start + 1) := by omega
        rw [if_neg crowded, room, ih (start + 1) inside, ← Nat.add_assoc, Nat.add_right_comm]

theorem roomLeft_lengthCounts (lengths : List Nat) :
    roomLeft (lengthCounts lengths) 1 =
      if occupied lengths maxLength ≤ 2 ^ maxLength then
        some (2 ^ maxLength - occupied lengths maxLength)
      else
        none := by
  have all := roomLeft_eq lengths 0 maxLength (by simp)
  rw [occupied_zero, Nat.pow_zero, Nat.sub_zero, ← List.range_eq_range', Nat.zero_add] at all
  exact all

/-! ## Which codes have tables -/

theorem occupied_filter (lengths : List Nat) (width : Nat) :
    occupied (lengths.filter (0 < ·)) width = occupied lengths width := by
  induction lengths with
  | nil => rfl
  | cons length lengths ih =>
      simp only [occupied] at ih
      by_cases positive : 0 < length
      · simp [occupied, positive, ih]
      · simp [occupied, positive, ih]

theorem wordless_iff {lengths : List Nat} :
    Wordless lengths ↔ lengths.filter (0 < ·) = [] := by
  simp [Wordless, List.filter_eq_nil_iff]

theorem Wordless.fits {lengths : List Nat} (wordless : Wordless lengths) : Fits lengths := by
  constructor
  · intro length member
    rw [wordless length member]
    exact Nat.zero_le _
  · rw [← occupied_filter, wordless_iff.mp wordless]
    exact Nat.zero_le _

theorem SingleBit.fits {lengths : List Nat} (single : SingleBit lengths) : Fits lengths := by
  constructor
  · intro length member
    by_cases positive : 0 < length
    · have kept : length ∈ lengths.filter (0 < ·) := by simp [member, positive]
      rw [single, List.mem_singleton] at kept
      subst kept
      decide
    · omega
  · rw [← occupied_filter, single]
    decide

theorem sum_counts (lengths : List Nat) (width : Nat) :
    ((List.range width).map fun index => lengths.count (index + 1)).sum =
      lengths.countP fun length => 0 < length && length ≤ width := by
  induction width with
  | zero =>
      symm
      apply List.countP_eq_zero.mpr
      intro length _
      simp only [Bool.and_eq_true, decide_eq_true_eq, not_and]
      omega
  | succ width ih =>
      rw [List.range_succ, List.map_append, List.sum_append, ih]
      clear ih
      induction lengths with
      | nil => rfl
      | cons length lengths ih =>
          simp only [List.countP_cons, List.count_cons, ← ih, beq_iff_eq, Bool.and_eq_true,
            decide_eq_true_eq, List.map_cons, List.map_nil, List.sum_cons, List.sum_nil]
          by_cases ends : length = width + 1
          · have new : ¬ (0 < length ∧ length ≤ width) := by omega
            have old : 0 < length ∧ length ≤ width + 1 := by omega
            rw [if_pos ends, if_neg new, if_pos old]
            omega
          · have same : 0 < length ∧ length ≤ width + 1 ↔ 0 < length ∧ length ≤ width := by
              omega
            simp only [if_neg ends, same]
            omega

theorem wordCount_eq {lengths : List Nat} (short : ∀ length ∈ lengths, length ≤ maxLength) :
    wordCount lengths = (lengths.filter (0 < ·)).length := by
  have counted : wordCount lengths =
      lengths.countP fun length => 0 < length && length ≤ maxLength :=
    sum_counts lengths maxLength
  rw [counted, List.countP_eq_length_filter]
  apply congrArg
  apply List.filter_congr
  intro length member
  simp [short length member]

theorem isDegenerate_iff {lengths : List Nat} (short : ∀ length ∈ lengths, length ≤ maxLength) :
    DecodingTable.isDegenerate lengths = true ↔ Wordless lengths ∨ SingleBit lengths := by
  have ones : (lengths.filter (0 < ·)).count 1 = lengths.count 1 :=
    List.count_filter (by decide)
  simp only [DecodingTable.isDegenerate, wordCount_eq short, Bool.or_eq_true,
    Bool.and_eq_true, beq_iff_eq, wordless_iff, SingleBit, List.length_eq_zero_iff, ← ones]
  apply or_congr_right
  constructor
  · rintro ⟨alone, one⟩
    obtain ⟨length, only⟩ := List.length_eq_one_iff.mp alone
    rw [only] at one ⊢
    by_cases isOne : length = 1
    · rw [isOne]
    · simp [isOne] at one
  · intro only
    rw [only]
    decide

namespace DecodingTable

/-- The table of a code, whether or not it is accepted. -/
def build (lengths : List Nat) : DecodingTable where
  counts := lengthCounts lengths
  symbols := (orderedSymbols lengths).toArray
  shortcuts := shortcutsOf lengths

/-- A code has a table if it is complete or, where this is allowed, has no word at all or a single
word of one bit. -/
def Accepted (lengths : List Nat) (allowIncomplete : Bool) : Prop :=
  Complete lengths ∨ allowIncomplete = true ∧ (Wordless lengths ∨ SingleBit lengths)

theorem Accepted.fits {lengths : List Nat} {allowIncomplete : Bool}
    (accepted : Accepted lengths allowIncomplete) : Fits lengths := by
  rcases accepted with complete | ⟨-, wordless | single⟩
  · exact complete.fits
  · exact wordless.fits
  · exact single.fits

/-- Words that leave room they may not leave are the only flaw of lengths that fit. -/
theorem ofLengths_of_rejected {lengths : List Nat} {allowIncomplete : Bool} (fits : Fits lengths)
    (rejected : ¬ Accepted lengths allowIncomplete) :
    ofLengths lengths allowIncomplete = .error .incompleteCode := by
  have short : ¬ lengths.any (maxLength < ·) = true := by
    intro long
    obtain ⟨length, member, tooLong⟩ := List.any_eq_true.mp long
    have bounded := fits.1 length member
    simp only [decide_eq_true_eq] at tooLong
    omega
  have room : occupied lengths maxLength ≠ 2 ^ maxLength :=
    fun whole => rejected (.inl ⟨fits.1, whole⟩)
  have inside := fits.2
  rw [ofLengths, if_neg short, roomLeft_lengthCounts, if_pos inside]
  refine if_pos ⟨by omega, ?_⟩
  rintro ⟨allowed, degenerate⟩
  exact rejected (.inr ⟨allowed, (isDegenerate_iff fits.1).mp degenerate⟩)

theorem ofLengths_eq_ok_iff {lengths : List Nat} {allowIncomplete : Bool}
    {table : DecodingTable} :
    ofLengths lengths allowIncomplete = .ok table ↔
      table = build lengths ∧ Accepted lengths allowIncomplete := by
  unfold ofLengths
  by_cases long : lengths.any (maxLength < ·)
  · rw [if_pos long]
    constructor
    · rintro ⟨⟩
    · rintro ⟨-, accepted⟩
      obtain ⟨length, member, tooLong⟩ := List.any_eq_true.mp long
      have short := accepted.fits.1 length member
      simp only [decide_eq_true_eq] at tooLong
      omega
  · have short : ∀ length ∈ lengths, length ≤ maxLength := by
      intro length member
      apply Nat.le_of_not_lt
      intro tooLong
      exact long (List.any_eq_true.mpr ⟨length, member, by simpa using tooLong⟩)
    rw [if_neg long, roomLeft_lengthCounts]
    by_cases inside : occupied lengths maxLength ≤ 2 ^ maxLength
    · have full : 2 ^ maxLength - occupied lengths maxLength = 0 ↔ Complete lengths := by
        constructor
        · intro none
          exact ⟨short, by omega⟩
        · intro complete
          rw [complete.2, Nat.sub_self]
      have degenerates := isDegenerate_iff short
      simp only [if_pos inside, Accepted, ← full, ← degenerates]
      split
      · rename_i rejected
        constructor
        · rintro ⟨⟩
        · rintro ⟨-, none | degenerate⟩
          · omega
          · exact absurd degenerate rejected.2
      · rename_i kept
        constructor
        · rintro ⟨⟩
          refine ⟨rfl, ?_⟩
          by_cases none : 2 ^ maxLength - occupied lengths maxLength = 0
          · exact .inl none
          · right
            apply Classical.byContradiction
            intro degenerate
            exact kept ⟨by omega, degenerate⟩
        · rintro ⟨rfl, -⟩
          rfl
    · rw [if_neg inside]
      constructor
      · rintro ⟨⟩
      · rintro ⟨-, accepted⟩
        exact absurd accepted.fits.2 inside

end DecodingTable

end DeflateAtlas.Huffman
