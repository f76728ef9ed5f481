import DeflateAtlas.Inflate.CodeTree
import DeflateAtlas.Proofs.Huffman.Decoding
import DeflateAtlas.Proofs.Inflate.Reading

/-!
# The codes of the inflater

The inflater keeps a code as a tree and accepts it if it is complete or has at
most one word.  A tree into which words have been put, none of which begins with
another, holds just these words; going down it reads them.  So a code that the
inflater accepts reads the same words as a decoding table built from the same
lengths.  Only a lone word of more than one bit tells the two apart: such a code
has no decoding table.
-/

namespace DeflateAtlas.Inflate

open BitSource (Spelling)
open Huffman

/-- A single symbol has a word, of more than one bit. -/
def SingleLong (lengths : List Nat) : Prop :=
  (lengths.filter (0 < ·)).length = 1 ∧ 1 ∉ lengths

instance (lengths : List Nat) : Decidable (SingleLong lengths) :=
  inferInstanceAs (Decidable ((lengths.filter (0 < ·)).length = 1 ∧ 1 ∉ lengths))

theorem SingleLong.fits {lengths : List Nat} (single : SingleLong lengths)
    (short : ∀ length ∈ lengths, length ≤ maxLength) : Fits lengths := by
  obtain ⟨length, only⟩ := List.length_eq_one_iff.mp single.1
  refine ⟨short, ?_⟩
  rw [← occupied_filter, only]
  simp only [occupied, List.map_singleton, List.sum_singleton]
  split
  · exact Nat.pow_le_pow_right (by decide) (Nat.sub_le _ _)
  · exact Nat.zero_le _

/-- There is no decoding table for a single word of more than one bit. -/
theorem SingleLong.not_accepted {lengths : List Nat} (single : SingleLong lengths)
    (allowIncomplete : Bool) : ¬ DecodingTable.Accepted lengths allowIncomplete := by
  obtain ⟨length, only⟩ := List.length_eq_one_iff.mp single.1
  have kept : length ∈ lengths.filter (0 < ·) := by
    rw [only]
    exact List.mem_singleton_self length
  obtain ⟨inside, positive⟩ := List.mem_filter.mp kept
  rw [decide_eq_true_eq] at positive
  have long : length ≠ 1 := fun one => single.2 (one ▸ inside)
  rintro (complete | ⟨-, wordless | bit⟩)
  · have whole := complete.2
    rw [← occupied_filter, only] at whole
    simp only [occupied, List.map_singleton, List.sum_singleton] at whole
    split at whole
    · have fewer : maxLength - length < maxLength := by
        simp only [maxLength]
        omega
      exact absurd whole (Nat.ne_of_lt (Nat.pow_lt_pow_right (by decide) fewer))
    · cases whole
  · exact absurd (wordless length inside) (Nat.ne_of_gt positive)
  · rw [bit, List.singleton_inj] at only
    exact long only.symm

/-! ## Trees -/

namespace CodeTree

/-- The word that leads to a symbol. -/
def Holds (symbol : Nat) : CodeTree → (word : List Bool) → Prop
  | .nothing, _ => False
  | .leaf found, word => symbol = found ∧ word = []
  | .branch _ _, [] => False
  | .branch zero _, false :: word => zero.Holds symbol word
  | .branch _ one, true :: word => one.Holds symbol word

theorem decodes_descend (tree : CodeTree) (position : Nat) :
    Decodes position tree.descend fun _ symbol word => tree.Holds symbol word := by
  induction tree generalizing position with
  | nothing => exact Decodes.throw .corrupt
  | leaf found => exact Decodes.pure found
  | branch zero one zeroIH oneIH =>
      apply ((decodes_bit position).bind fun bit _ _ => (oneIH _).ite (zeroIH _)).congr
      intro symbol word
      constructor
      · rintro ⟨bit, _, rest, rfl, spelled, rfl⟩
        cases bit with
        | false => exact spelled
        | true => exact spelled
      · intro held
        cases word with
        | nil => exact held.elim
        | cons bit word =>
            cases bit with
            | false => exact ⟨false, _, word, rfl, held, rfl⟩
            | true => exact ⟨true, _, word, rfl, held, rfl⟩

/-- Neither of two words begins with the other. -/
def Apart (first second : List Bool) : Prop :=
  ¬ first <+: second ∧ ¬ second <+: first

theorem apart_cons {bit : Bool} {first second : List Bool} :
    Apart (bit :: first) (bit :: second) ↔ Apart first second := by
  simp [Apart, List.cons_prefix_cons]

/-- Putting in a word that is apart from those in a tree adds it to them. -/
theorem holds_insert {tree : CodeTree} {symbol other : Nat} {word held : List Bool}
    (apart : ∀ other held, tree.Holds other held → Apart word held) :
    (tree.insert symbol word).Holds other held ↔
      (other = symbol ∧ held = word) ∨ tree.Holds other held := by
  induction word generalizing tree held with
  | nil =>
      have empty : ¬ tree.Holds other held := fun holds =>
        (apart other held holds).1 List.nil_prefix
      simp [insert, Holds, empty]
  | cons bit word ih =>
      cases tree with
      | nothing =>
          have nothing : ∀ other held, CodeTree.nothing.Holds other held → Apart word held :=
            fun _ _ => False.elim
          cases bit <;> cases held with
          | nil => simp [insert, Holds]
          | cons first held => cases first <;> simp [insert, Holds, ih nothing]
      | leaf found => exact absurd List.nil_prefix (apart found [] ⟨rfl, rfl⟩).2
      | branch zero one =>
          cases bit with
          | false =>
              have zeroApart : ∀ other held, zero.Holds other held → Apart word held :=
                fun other held holds => apart_cons.mp (apart other (false :: held) holds)
              cases held with
              | nil => simp [insert, Holds]
              | cons first held => cases first <;> simp [insert, Holds, ih zeroApart]
          | true =>
              have oneApart : ∀ other held, one.Holds other held → Apart word held :=
                fun other held holds => apart_cons.mp (apart other (true :: held) holds)
              cases held with
              | nil => simp [insert, Holds]
              | cons first held => cases first <;> simp [insert, Holds, ih oneApart]

/-! ### Gaps -/

/-- The length of the longest way down. -/
def height : CodeTree → Nat
  | .nothing | .leaf _ => 0
  | .branch zero one => max zero.height one.height + 1

theorem height_insert (symbol : Nat) (word : List Bool) (tree : CodeTree) :
    (tree.insert symbol word).height ≤ max tree.height word.length := by
  induction word generalizing tree with
  | nil => exact Nat.zero_le _
  | cons bit word ih =>
      cases tree with
      | nothing =>
          have inner := ih .nothing
          cases bit <;> simp only [insert, height, List.length_cons] at inner ⊢ <;> omega
      | leaf found =>
          have inner := ih .nothing
          cases bit <;> simp only [insert, height, List.length_cons] at inner ⊢ <;> omega
      | branch zero one =>
          have zeroInner := ih zero
          have oneInner := ih one
          cases bit <;> simp only [insert, height, List.length_cons] <;> omega

/-- A tree that ends above the index has no gaps to fill. -/
theorem fillGaps_of_low {depth : Nat} {tree : CodeTree}
    (low : depth + tree.height ≤ indexWidth) : tree.fillGaps depth = tree := by
  induction tree generalizing depth with
  | nothing => exact if_pos low
  | leaf found => rfl
  | branch zero one zeroIH oneIH =>
      rw [height] at low
      rw [fillGaps, zeroIH (by omega), oneIH (by omega)]

/-- Gaps are filled with symbol zero, so no other symbol gets a word. -/
theorem holds_fillGaps {symbol : Nat} (other : symbol ≠ 0) (depth : Nat) (tree : CodeTree)
    (word : List Bool) : (tree.fillGaps depth).Holds symbol word ↔ tree.Holds symbol word := by
  induction tree generalizing depth word with
  | nothing =>
      rw [fillGaps]
      split
      · rfl
      · exact ⟨fun held => other held.1, False.elim⟩
  | leaf found => rfl
  | branch zero one zeroIH oneIH =>
      cases word with
      | nil => rfl
      | cons bit word =>
          cases bit with
          | false => exact zeroIH (depth + 1) word
          | true => exact oneIH (depth + 1) word

end CodeTree

/-! ## Codes -/

namespace Codebook

open CodeTree (Apart)

/-- A code as one tree. -/
def tree (codebook : Codebook) : CodeTree :=
  .branch codebook.zero codebook.one

theorem tree_insert (codebook : Codebook) (symbol : Nat) {word : List Bool} (more : word ≠ []) :
    (codebook.insert symbol word).tree = codebook.tree.insert symbol word := by
  cases word with
  | nil => exact absurd rfl more
  | cons bit word => cases bit <;> rfl

theorem decodes_decode (codebook : Codebook) (position : Nat) :
    Decodes position codebook.decode fun _ symbol word => codebook.tree.Holds symbol word :=
  codebook.tree.decodes_descend position

theorem holds_foldl_insert {entries : List (CodeWord × Nat)} {codebook : Codebook}
    (fresh : ∀ entry ∈ entries, entry.1.bits ≠ [] → ∀ symbol word,
      codebook.tree.Holds symbol word → Apart entry.1.bits word)
    (apart : entries.Pairwise fun first second =>
      first.1.bits ≠ [] → second.1.bits ≠ [] → Apart second.1.bits first.1.bits)
    (symbol : Nat) (word : List Bool) :
    (entries.foldl (fun codebook (word, symbol) => codebook.insert symbol word.bits)
        codebook).tree.Holds symbol word ↔
      codebook.tree.Holds symbol word ∨
        ∃ entry ∈ entries, entry.1.bits ≠ [] ∧ symbol = entry.2 ∧ word = entry.1.bits := by
  -- The words still to come stay apart from those in the tree, which the first of them joins.
  induction entries generalizing codebook with
  | nil => simp
  | cons entry entries ih =>
      obtain ⟨code, found⟩ := entry
      rw [List.pairwise_cons] at apart
      rw [List.forall_mem_cons] at fresh
      simp only [List.foldl_cons, List.mem_cons, exists_eq_or_imp]
      dsimp only at fresh apart
      by_cases none : code.bits = []
      · rw [none, Codebook.insert, ih fresh.2 apart.2]
        simp
      · have added (symbol : Nat) (word : List Bool) :
            (codebook.insert found code.bits).tree.Holds symbol word ↔
              (symbol = found ∧ word = code.bits) ∨ codebook.tree.Holds symbol word := by
          rw [tree_insert _ _ none]
          exact CodeTree.holds_insert (fresh.1 none)
        rw [ih _ apart.2, added]
        · simp only [ne_eq, none, not_false_eq_true, true_and]
          rw [or_assoc, or_left_comm]
        · intro entry inside some symbol word held
          rcases (added symbol word).mp held with ⟨-, rfl⟩ | earlier
          · exact apart.1 entry inside none some
          · exact fresh.2 entry inside some symbol word earlier

theorem mem_zipIdx_codeWords {lengths : List Nat} {word : CodeWord} {symbol : Nat}
    (inside : (word, symbol) ∈ (codeWords lengths).zipIdx) :
    word.bits = wordBits lengths symbol := by
  rw [List.mem_zipIdx_iff_getElem?] at inside
  rw [wordBits, List.getD_eq_getElem?_getD, inside, Option.getD_some]

theorem wordBits_ne_nil_iff {lengths : List Nat} {symbol : Nat} :
    wordBits lengths symbol ≠ [] ↔ HasWord lengths symbol := by
  rw [← List.length_pos_iff, length_wordBits]
  rfl

/-- The tree of a code holds the words of the code. -/
theorem holds_ofLengths {lengths : List Nat} (fits : Fits lengths) (symbol : Nat)
    (word : List Bool) :
    (ofLengths lengths).tree.Holds symbol word ↔
      HasWord lengths symbol ∧ word = wordBits lengths symbol := by
  have distinct : (codeWords lengths).zipIdx.Pairwise fun first second => first.2 ≠ second.2 := by
    have symbols : ((codeWords lengths).zipIdx.map Prod.snd).Nodup := by
      rw [List.zipIdx_map_snd]
      exact List.nodup_range'
    exact List.pairwise_map.mp symbols
  have apart : (codeWords lengths).zipIdx.Pairwise fun first second =>
      first.1.bits ≠ [] → second.1.bits ≠ [] → Apart second.1.bits first.1.bits := by
    apply distinct.imp_of_mem
    rintro ⟨first, earlier⟩ ⟨second, later⟩ firstInside secondInside differ
    dsimp only at differ ⊢
    rw [mem_zipIdx_codeWords firstInside, mem_zipIdx_codeWords secondInside, wordBits_ne_nil_iff,
      wordBits_ne_nil_iff]
    intro hasFirst hasSecond
    exact ⟨fun begins => differ (eq_of_wordBits_begins fits hasSecond hasFirst begins).symm,
      fun begins => differ (eq_of_wordBits_begins fits hasFirst hasSecond begins)⟩
  have empty : ∀ symbol word, ¬ (tree ⟨.nothing, .nothing⟩).Holds symbol word := by
    intro symbol word held
    cases word with
    | nil => exact held
    | cons bit word => cases bit <;> exact held
  rw [ofLengths, holds_foldl_insert _ apart]
  · constructor
    · rintro (held | ⟨⟨code, found⟩, inside, some, rfl, rfl⟩)
      · exact absurd held (empty symbol word)
      · dsimp only at some ⊢
        rw [mem_zipIdx_codeWords inside] at some ⊢
        exact ⟨wordBits_ne_nil_iff.mp some, rfl⟩
    · rintro ⟨hasWord, rfl⟩
      obtain ⟨length, -, listed⟩ := hasWord_iff.mp hasWord
      obtain ⟨small, -⟩ := List.getElem?_eq_some_iff.mp listed
      rw [← length_codeWords] at small
      have inside : ((codeWords lengths)[symbol], symbol) ∈ (codeWords lengths).zipIdx := by
        rw [List.mem_zipIdx_iff_getElem?]
        exact List.getElem?_eq_getElem small
      have same := mem_zipIdx_codeWords inside
      exact .inr ⟨_, inside, same ▸ wordBits_ne_nil_iff.mpr hasWord, rfl, same.symm⟩
  · intro entry inside some symbol word held
    exact absurd held (empty symbol word)

theorem decodes_ofLengths {lengths : List Nat} (fits : Fits lengths) (position : Nat) :
    Decodes position (ofLengths lengths).decode (wordSpelling lengths) :=
  ((ofLengths lengths).decodes_decode position).congr (holds_ofLengths fits)

/-! ### Which codes are accepted -/

theorem isComplete_iff {lengths : List Nat} (short : ∀ length ∈ lengths, length ≤ maxLength) :
    isComplete lengths = true ↔ Complete lengths := by
  have shares : lengths.map share = lengths.map fun length =>
      if 0 < length ∧ length ≤ maxLength then 2 ^ (maxLength - length) else 0 := by
    apply List.map_congr_left
    intro length inside
    have bounded := short length inside
    simp only [share, Nat.one_shiftLeft]
    by_cases none : length = 0
    · simp [none]
    · rw [if_neg none, if_pos ⟨Nat.pos_of_ne_zero none, bounded⟩]
  have total : (lengths.map share).foldr (· + ·) 0 = occupied lengths maxLength := by
    rw [shares]
    rfl
  rw [isComplete, total, beq_iff_eq, Nat.one_shiftLeft, Complete]
  exact ⟨fun whole => ⟨short, whole⟩, And.right⟩

theorem isSparse_iff {lengths : List Nat} :
    isSparse lengths = true ↔ Wordless lengths ∨ SingleBit lengths ∨ SingleLong lengths := by
  have words : lengths.filter (· != 0) = lengths.filter (0 < ·) := by
    apply List.filter_congr
    intro length _
    by_cases none : length = 0
    · simp [none]
    · simp [none, Nat.pos_of_ne_zero none]
  rw [isSparse, decide_eq_true_eq, words, wordless_iff, SingleBit, SingleLong]
  have ones : 1 ∈ lengths.filter (0 < ·) ↔ 1 ∈ lengths := by simp [List.mem_filter]
  rw [← ones]
  generalize lengths.filter (0 < ·) = listed
  rcases listed with _ | ⟨length, _ | ⟨second, others⟩⟩
  · simp
  · simp only [List.length_singleton, Nat.le_refl, true_iff, List.cons_ne_nil, false_or,
      List.cons.injEq, and_true, true_and, List.mem_singleton]
    omega
  · simp

theorem exists_ofLengths?_iff {lengths : List Nat}
    (short : ∀ length ∈ lengths, length ≤ maxLength) :
    (∃ codebook, ofLengths? lengths = some codebook) ↔
      DecodingTable.Accepted lengths true ∨ SingleLong lengths := by
  simp only [DecodingTable.Accepted, true_and, or_assoc]
  rw [← isComplete_iff short, ← isSparse_iff, ofLengths?]
  split
  · rename_i complete
    simp [complete]
  · rename_i incomplete
    split
    · rename_i sparse
      simp [sparse]
    · rename_i crowded
      simp [incomplete, crowded]

theorem height_foldl_insert {entries : List (CodeWord × Nat)} {codebook : Codebook} {bound : Nat}
    (before : codebook.tree.height ≤ bound) (low : ∀ entry ∈ entries, entry.1.length ≤ bound) :
    (entries.foldl (fun codebook (word, symbol) => codebook.insert symbol word.bits)
      codebook).tree.height ≤ bound := by
  induction entries generalizing codebook with
  | nil => exact before
  | cons entry entries ih =>
      obtain ⟨code, found⟩ := entry
      rw [List.forall_mem_cons] at low
      rw [List.foldl_cons]
      apply ih _ low.2
      by_cases none : code.bits = []
      · dsimp only
        rwa [none]
      · have grown := CodeTree.height_insert found code.bits codebook.tree
        rw [CodeWord.length_bits] at grown
        dsimp only at low ⊢
        rw [tree_insert _ _ none]
        omega

theorem height_ofLengths {lengths : List Nat} {bound : Nat} (some : 1 ≤ bound)
    (low : ∀ length ∈ lengths, length ≤ bound) : (ofLengths lengths).tree.height ≤ bound := by
  apply height_foldl_insert some
  rintro ⟨word, symbol⟩ inside
  have listed := List.mem_zipIdx_iff_getElem?.mp inside
  simp only [codeWords, List.getElem?_mapIdx, Option.map_eq_some_iff] at listed
  obtain ⟨length, listed, rfl⟩ := listed
  exact low length (List.mem_of_getElem? listed)

/-- A code with no word of more than one bit has no gap below the index. -/
theorem fillGaps_ofLengths {lengths : List Nat} (low : ∀ length ∈ lengths, length ≤ 1) :
    (ofLengths lengths).fillGaps = ofLengths lengths := by
  have shallow := height_ofLengths (Nat.le_refl 1) low
  have same : (ofLengths lengths).tree.fillGaps 0 = (ofLengths lengths).tree := by
    apply CodeTree.fillGaps_of_low
    simp only [CodeTree.indexWidth]
    omega
  simp only [tree, CodeTree.fillGaps, CodeTree.branch.injEq] at same
  rw [Codebook.fillGaps, same.1, same.2]

variable {lengths : List Nat} {codebook : Codebook}

/-- Where there is a decoding table, the inflater reads the same words. -/
theorem decodes_of_accepted (found : ofLengths? lengths = some codebook)
    (accepted : DecodingTable.Accepted lengths true) (position : Nat) :
    Decodes position codebook.decode (wordSpelling lengths) := by
  have fits := accepted.fits
  have same : codebook = ofLengths lengths := by
    rw [ofLengths?] at found
    split at found
    · exact (Option.some.inj found).symm
    · rename_i incomplete
      rw [isComplete_iff fits.1] at incomplete
      have low : ∀ length ∈ lengths, length ≤ 1 := by
        intro length inside
        rcases accepted with whole | ⟨-, wordless | single⟩
        · exact absurd whole incomplete
        · rw [wordless length inside]
          exact Nat.zero_le 1
        · by_cases positive : 0 < length
          · have kept : length ∈ lengths.filter (0 < ·) := by simp [inside, positive]
            rw [single, List.mem_singleton] at kept
            exact Nat.le_of_eq kept
          · omega
      rw [fillGaps_ofLengths low] at found
      split at found
      · exact (Option.some.inj found).symm
      · cases found
  rw [same]
  exact decodes_ofLengths fits position

theorem complete?_eq_some_iff (short : ∀ length ∈ lengths, length ≤ maxLength) :
    complete? lengths = some codebook ↔ Complete lengths ∧ codebook = ofLengths lengths := by
  rw [complete?, ← isComplete_iff short]
  split
  · rename_i complete
    simp [complete, eq_comm]
  · rename_i incomplete
    simp [incomplete]

/-- Words of symbols other than zero are those of the code even if it has gaps. -/
theorem holds_of_ofLengths? (found : ofLengths? lengths = some codebook)
    (short : ∀ length ∈ lengths, length ≤ maxLength) {symbol : Nat} (other : symbol ≠ 0)
    (word : List Bool) :
    codebook.tree.Holds symbol word ↔ HasWord lengths symbol ∧ word = wordBits lengths symbol := by
  have fits : Fits lengths := by
    rcases (exists_ofLengths?_iff short).mp ⟨codebook, found⟩ with accepted | single
    · exact accepted.fits
    · exact single.fits short
  rw [ofLengths?] at found
  split at found
  · rw [← Option.some.inj found, holds_ofLengths fits]
  · split at found
    · rw [← Option.some.inj found, ← holds_ofLengths fits]
      exact CodeTree.holds_fillGaps other 0 (ofLengths lengths).tree word
    · cases found

end Codebook

end DeflateAtlas.Inflate
