import DeflateAtlas.Proofs.BitSource.Steady
import DeflateAtlas.Proofs.Huffman.CodeWord

/-!
# Decoding reads code words

A table decodes a symbol exactly from the bits of its word, bit by bit as well
as by a single look at eight bits.  Bit by bit, the bits read so far lie
beyond all words of their length until they are a word.  At a single look, no
two words begin the same byte, so it does not matter in which order they were
entered.
-/

namespace DeflateAtlas.Huffman

open BitSource

/-- A symbol of a code is spelled by its word. -/
def wordSpelling (lengths : List Nat) : Spelling Nat := fun _ symbol word =>
  HasWord lengths symbol ∧ word = wordBits lengths symbol

namespace DecodingTable

/-- The walk that has read the bits of a path and may read `number` more. -/
def walkFrom (lengths : List Nat) (path : List Bool) (number : Nat) : Action Nat :=
  (build lengths).walk ((List.range' path.length number).map fun index => lengths.count (index + 1))
    (2 * codeValue path) (2 * occupied lengths path.length) (ranked lengths path.length)

theorem decodeSlow_eq_walkFrom (lengths : List Nat) :
    (build lengths).decodeSlow = walkFrom lengths [] maxLength := by
  rw [walkFrom, codeValue_nil, List.length_nil, occupied_zero, Nat.mul_zero,
    ← List.range_eq_range']
  rfl

section Walk

variable {lengths : List Nat} (fits : Fits lengths)
include fits

theorem codeValue_lt_occupied {symbol : Nat} (hasWord : HasWord lengths symbol) :
    codeValue (wordBits lengths symbol) <
      occupied lengths (wordBits lengths symbol).length := by
  obtain ⟨length, positive, listed⟩ := hasWord_iff.mp hasWord
  rw [length_wordBits_of_listed listed]
  exact (codeValue_wordBits fits listed positive).2

theorem length_wordBits_le {symbol : Nat} (hasWord : HasWord lengths symbol) :
    (wordBits lengths symbol).length ≤ maxLength := by
  obtain ⟨length, positive, listed⟩ := hasWord_iff.mp hasWord
  rw [length_wordBits_of_listed listed]
  exact fits.1 length (List.mem_of_getElem? listed)

/-- Bits in the range of the words of their length are the word of the symbol that is found. -/
theorem exists_symbolAt {path : List Bool} {width : Nat} (size : path.length = width + 1)
    (inside : width < maxLength) (low : 2 * occupied lengths width ≤ codeValue path)
    (high : codeValue path < occupied lengths (width + 1)) :
    ∃ symbol, (build lengths).symbolAt
        (ranked lengths width + (codeValue path - 2 * occupied lengths width)) = pure symbol ∧
      HasWord lengths symbol ∧ wordBits lengths symbol = path := by
  have grows := occupied_succ lengths width
  have below : codeValue path - 2 * occupied lengths width <
      (symbolsOfLength lengths (width + 1)).length := by
    rw [length_symbolsOfLength]
    omega
  obtain ⟨symbol, found⟩ :
      ∃ symbol, (symbolsOfLength lengths (width + 1))[
        codeValue path - 2 * occupied lengths width]? = some symbol :=
    ⟨_, List.getElem?_eq_getElem below⟩
  have resolved : (build lengths).symbolAt
      (ranked lengths width + (codeValue path - 2 * occupied lengths width)) = pure symbol := by
    rw [length_symbolsOfLength] at below
    simp [symbolAt, build, orderedSymbols_getElem? inside below, found]
  obtain ⟨listed, ranks⟩ := listed_of_symbolsOfLength found
  refine ⟨symbol, resolved, hasWord_iff.mpr ⟨width + 1, by omega, listed⟩, ?_⟩
  have value := (codeValue_wordBits fits listed (by omega)).1
  rw [ranks, Nat.add_sub_cancel] at value
  apply codeValue_injective
  · rw [length_wordBits_of_listed listed, size]
  · omega

/-- After the whole word of a symbol nothing is left to read of any word that begins so. -/
theorem reads_pure_symbol {symbol : Nat} (hasWord : HasWord lengths symbol) :
    Reads (pure symbol : Action Nat) fun _ other word =>
      HasWord lengths other ∧ wordBits lengths other = wordBits lengths symbol ++ word := by
  apply (Reads.pure symbol).congr
  intro position other word
  constructor
  · rintro ⟨rfl, rfl⟩
    exact ⟨hasWord, (List.append_nil _).symm⟩
  · rintro ⟨otherWord, whole⟩
    have begins : wordBits lengths symbol <+: wordBits lengths other := ⟨word, whole.symm⟩
    have same := eq_of_wordBits_begins fits hasWord otherWord begins
    subst same
    exact ⟨rfl, List.append_cancel_left (whole.symm.trans (List.append_nil _).symm)⟩

/-- Bits beyond all words of their length are not a word. -/
theorem wordBits_ne {path : List Bool} (beyond : occupied lengths path.length ≤ codeValue path)
    {symbol : Nat} (hasWord : HasWord lengths symbol) : wordBits lengths symbol ≠ path := by
  rintro rfl
  exact absurd (codeValue_lt_occupied fits hasWord) (Nat.not_lt.mpr beyond)

/-- With one more bit a walk has met the word of a symbol, or it is beyond all words of this length
too. -/
theorem walkFrom_succ {path : List Bool} {number : Nat}
    (whole : path.length + (number + 1) = maxLength)
    (beyond : occupied lengths path.length ≤ codeValue path) :
    ∃ next : Nat → Action Nat, walkFrom lengths path (number + 1) = getBits 1 >>= next ∧
      ∀ bit < 2,
        (∃ symbol, next bit = pure symbol ∧ HasWord lengths symbol ∧
          wordBits lengths symbol = path ++ [bit.testBit 0]) ∨
        (next bit = walkFrom lengths (path ++ [bit.testBit 0]) number ∧
          occupied lengths (path ++ [bit.testBit 0]).length ≤
            codeValue (path ++ [bit.testBit 0])) := by
  refine ⟨_, by rw [walkFrom, List.range'_succ, List.map_cons]; rfl, fun bit small => ?_⟩
  have grows := occupied_succ lengths path.length
  have further : (path ++ [bit.testBit 0]).length = path.length + 1 := by simp
  have value := codeValue_concat_testBit path small
  have first : 2 * occupied lengths path.length ≤ 2 * codeValue path + bit := by omega
  by_cases ends : 2 * codeValue path + bit <
      2 * occupied lengths path.length + lengths.count (path.length + 1)
  · simp only [ends, first, if_true]
    rw [← value]
    exact .inl (exists_symbolAt fits further (by omega) (by omega) (by omega))
  · simp only [ends, if_false]
    rw [← grows, ← value, ← ranked_succ, ← further]
    exact .inr ⟨rfl, by rw [further]; omega⟩

/-- From bits beyond all words of their length on, the rest of a word is read. -/
theorem reads_walkFrom {path : List Bool} {number : Nat} (whole : path.length + number = maxLength)
    (beyond : occupied lengths path.length ≤ codeValue path) :
    Reads (walkFrom lengths path number)
      fun _ symbol word => HasWord lengths symbol ∧ wordBits lengths symbol = path ++ word := by
  induction number generalizing path with
  | zero =>
      apply (Reads.throw _).congr
      intro position symbol word
      constructor
      · exact False.elim
      · rintro ⟨hasWord, split⟩
        have sizes := congrArg List.length split
        have short := length_wordBits_le fits hasWord
        rw [List.length_append] at sizes
        obtain rfl := List.eq_nil_of_length_eq_zero (l := word) (by omega)
        exact wordBits_ne fits beyond hasWord (by rw [split, List.append_nil])
  | succ number ih =>
      obtain ⟨next, walks, step⟩ := walkFrom_succ fits whole beyond
      rw [walks]
      refine ((reads_getBits (by decide : 1 ≤ 32)).bind_of_spelled
        (fun bit _ symbol word => HasWord lengths symbol ∧
          wordBits lengths symbol = path ++ [bit.testBit 0] ++ word)
        fun bit spelled => ?_).congr fun position symbol word => ?_
      · obtain ⟨_, _, small, _⟩ := spelled
        rcases step bit small with ⟨symbol, resolved, hasWord, met⟩ | ⟨goesOn, still⟩
        · rw [resolved, ← met]
          exact reads_pure_symbol fits hasWord
        · rw [goesOn]
          exact ih (by rw [List.length_append, List.length_singleton]; omega) still
      · constructor
        · rintro ⟨bit, before, after, ⟨small, rfl⟩, ⟨hasWord, split⟩, rfl⟩
          exact ⟨hasWord, by rw [split, List.append_assoc]; rfl⟩
        · rintro ⟨hasWord, split⟩
          cases word with
          | nil =>
              exact absurd (by rw [split, List.append_nil]) (wordBits_ne fits beyond hasWord)
          | cons bit word =>
              refine ⟨bit.toNat, [bit], word, ?_, ⟨hasWord, ?_⟩, rfl⟩
              · cases bit <;> exact ⟨by decide, rfl⟩
              · rw [split]
                cases bit <;> simp

theorem reads_decodeSlow : Reads (build lengths).decodeSlow (wordSpelling lengths) := by
  rw [decodeSlow_eq_walkFrom]
  apply (reads_walkFrom fits (Nat.zero_add maxLength) (by simp)).congr
  intro position symbol word
  rw [List.nil_append]
  exact and_congr_right fun _ => eq_comm

end Walk

/-! ## A single look -/

/-- A word is reversed to the number that its bits are in the data. -/
theorem prefix_lowBits_iff {word : CodeWord} (short : word.length ≤ 8) {byte : Nat}
    (small : byte < 2 ^ 8) :
    (∃ suffix < 2 ^ (8 - word.length), word.reversed + suffix * 2 ^ word.length = byte) ↔
      word.bits <+: lowBits 8 byte := by
  constructor
  · rintro ⟨suffix, _, rfl⟩
    have joined := lowBits_add_mul word.reversed_lt (8 - word.length) suffix
    rw [Nat.add_sub_cancel' short, word.lowBits_reversed, Nat.mul_comm] at joined
    rw [joined]
    exact List.prefix_append _ _
  · intro begins
    have value : word.reversed = byte % 2 ^ word.length := by
      have whole := List.prefix_iff_eq_take.mp begins
      rw [word.length_bits, take_lowBits short] at whole
      rw [CodeWord.reversed, whole, bitsValue_lowBits]
    refine ⟨byte / 2 ^ word.length, ?_, ?_⟩
    · apply Nat.div_lt_of_lt_mul
      rwa [← Nat.pow_add, Nat.add_sub_cancel' short]
    · rw [value, Nat.mul_comm]
      exact Nat.mod_add_div _ _

theorem getElem_foldl_setIfInBounds {α : Type} {size : Nat} (place : Nat → Nat) (value : α)
    (number : Nat) (entries : Vector α size) {index : Nat} (inside : index < size) :
    ((∃ step < number, place step = index) ∧
        ((List.range number).foldl
          (fun entered step => entered.setIfInBounds (place step) value) entries)[index] =
          value) ∨
      ((¬ ∃ step < number, place step = index) ∧
        ((List.range number).foldl
          (fun entered step => entered.setIfInBounds (place step) value) entries)[index] =
          entries[index]) := by
  induction number with
  | zero => simp
  | succ number ih =>
      rw [List.range_succ, List.foldl_append, List.foldl_cons, List.foldl_nil,
        Vector.getElem_setIfInBounds inside]
      by_cases here : place number = index
      · exact .inl ⟨⟨number, Nat.lt_succ_self number, here⟩, if_pos here⟩
      · rw [if_neg here]
        rcases ih with ⟨⟨step, earlier, there⟩, written⟩ | ⟨nowhere, kept⟩
        · exact .inl ⟨⟨step, Nat.lt_succ_of_lt earlier, there⟩, written⟩
        · refine .inr ⟨?_, kept⟩
          rintro ⟨step, earlier, there⟩
          rcases Nat.lt_succ_iff_lt_or_eq.mp earlier with less | rfl
          · exact nowhere ⟨step, less, there⟩
          · exact here there

/-- A word is entered at the bytes that begin with it. -/
theorem getElem_enter (shortcuts : Vector Shortcut 256) (symbol : Nat) (word : CodeWord)
    {byte : Nat} (small : byte < 256) :
    (0 < word.length ∧ word.bits <+: lowBits 8 byte ∧
        (enter shortcuts symbol word)[byte] = ⟨word.length, symbol⟩) ∨
      (¬ (0 < word.length ∧ word.bits <+: lowBits 8 byte) ∧
        (enter shortcuts symbol word)[byte] = shortcuts[byte]) := by
  unfold enter
  simp only [Nat.shiftLeft_eq, Nat.one_mul]
  split
  · rename_i skipped
    refine .inr ⟨?_, rfl⟩
    rintro ⟨positive, begins⟩
    have short := begins.length_le
    rw [word.length_bits, length_lowBits] at short
    omega
  · rename_i entered
    have short : word.length ≤ 8 := by omega
    have meets := prefix_lowBits_iff short small
    rcases getElem_foldl_setIfInBounds
        (fun suffix => word.reversed + suffix * 2 ^ word.length)
        (⟨word.length, symbol⟩ : Shortcut) (2 ^ (8 - word.length)) shortcuts small with
      ⟨found, written⟩ | ⟨missed, kept⟩
    · exact .inl ⟨by omega, meets.mp found, written⟩
    · exact .inr ⟨fun ⟨_, begins⟩ => missed (meets.mpr begins), kept⟩

private theorem getElem_foldl_enter (words : List (CodeWord × Nat))
    (shortcuts : Vector Shortcut 256) {byte : Nat} (small : byte < 256) :
    (∃ entry ∈ words, 0 < entry.1.length ∧ entry.1.bits <+: lowBits 8 byte ∧
        (words.foldl (fun entered (word, symbol) => enter entered symbol word)
          shortcuts)[byte] = ⟨entry.1.length, entry.2⟩) ∨
      (words.foldl (fun entered (word, symbol) => enter entered symbol word)
        shortcuts)[byte] = shortcuts[byte] := by
  induction words generalizing shortcuts with
  | nil => exact .inr rfl
  | cons entry words ih =>
      rw [List.foldl_cons]
      rcases ih (enter shortcuts entry.2 entry.1) with ⟨later, member, found⟩ | kept
      · exact .inl ⟨later, List.mem_cons_of_mem _ member, found⟩
      · rcases getElem_enter shortcuts entry.2 entry.1 small with
          ⟨positive, begins, written⟩ | ⟨_, unchanged⟩
        · exact .inl ⟨entry, List.mem_cons_self, positive, begins, kept.trans written⟩
        · exact .inr (kept.trans unchanged)

theorem shortcut_resolves {lengths : List Nat} {byte : UInt8}
    (resolves : ((build lengths).shortcut byte).length ≠ 0) :
    HasWord lengths ((build lengths).shortcut byte).symbol ∧
      wordBits lengths ((build lengths).shortcut byte).symbol <+: lowBits 8 byte.toNat ∧
      ((build lengths).shortcut byte).length =
        (wordBits lengths ((build lengths).shortcut byte).symbol).length := by
  have small : byte.toNat < 256 := byte.toNat_lt
  rcases getElem_foldl_enter (codeWords lengths).zipIdx (Vector.replicate 256 ⟨0, 0⟩) small with
    ⟨⟨word, symbol⟩, member, positive, begins, found⟩ | none
  · have listed : (codeWords lengths)[symbol]? = some word :=
      List.mem_zipIdx_iff_getElem?.mp member
    have entry : (build lengths).shortcut byte = ⟨word.length, symbol⟩ := found
    have spelled : wordBits lengths symbol = word.bits := by
      rw [wordBits, List.getD_eq_getElem?_getD, listed, Option.getD_some]
    rw [entry]
    refine ⟨?_, ?_, ?_⟩
    · rw [HasWord, ← length_wordBits, spelled, word.length_bits]
      exact positive
    · rwa [spelled]
    · rw [spelled, word.length_bits]
  · have entry : (build lengths).shortcut byte = ⟨0, 0⟩ := by
      rw [shortcut]
      exact none.trans (by simp)
    rw [entry] at resolves
    exact absurd rfl resolves

/-- The shortcut that decoding takes at a source, if it takes one. -/
def shortcut? (table : DecodingTable) (source : BitSource) : Option Shortcut :=
  let filled := source.ensure 8
  let found := table.shortcut filled.lowByte
  if 8 ≤ filled.count ∧ found.length ≠ 0 then some found else none

theorem decode_eq (table : DecodingTable) (source : BitSource) :
    table.decode source =
      match table.shortcut? source with
      | some found => .ok found.symbol ((source.ensure 8).discard found.length)
      | none => table.decodeSlow (source.ensure 8) := by
  simp only [decode, shortcut?]
  split
  · rfl
  · rfl

/-- A shortcut is taken only where eight bits are loaded and they begin with the word of its
symbol. -/
theorem shortcut?_sound {lengths : List Nat} {source : BitSource} (wellFormed : source.WellFormed)
    {found : Shortcut} (taken : (build lengths).shortcut? source = some found) :
    8 ≤ (source.ensure 8).count ∧ HasWord lengths found.symbol ∧
      wordBits lengths found.symbol <+: source.bits.take 8 ∧
      found.length = (wordBits lengths found.symbol).length := by
  have kept : (source.ensure 8).bits = source.bits := (wellFormed.takes_ensure 8).bits
  simp only [shortcut?] at taken
  split at taken
  · rename_i quick
    cases taken
    obtain ⟨hasWord, meets, size⟩ := shortcut_resolves quick.2
    rw [lowBits_lowByte quick.1, kept] at meets
    exact ⟨quick.1, hasWord, meets, size⟩
  · cases taken

/-- A single look gives a word that comes next, or else the bits are read one by one. -/
theorem decode_cases (lengths : List Nat) {source : BitSource} (wellFormed : source.WellFormed) :
    (∃ symbol after, (build lengths).decode source = .ok symbol after ∧
        HasWord lengths symbol ∧ wordBits lengths symbol <+: source.bits ∧
        Takes source after (wordBits lengths symbol).length) ∨
      (build lengths).decode source = (build lengths).decodeSlow (source.ensure 8) := by
  rw [decode_eq]
  cases looked : (build lengths).shortcut? source with
  | none => exact .inr rfl
  | some found =>
      obtain ⟨loaded, hasWord, meets, size⟩ := shortcut?_sound wellFormed looked
      have short : found.length ≤ 8 := by
        rw [size]
        exact Nat.le_trans meets.length_le (List.length_take_le 8 _)
      have filled := wellFormed.takes_ensure 8
      have taken := filled.trans
        (filled.wellFormed.takes_discard (by omega) (Nat.le_trans short loaded))
      rw [Nat.zero_add, size] at taken
      exact .inl ⟨_, _, rfl, hasWord, meets.trans (List.take_prefix _ _), by rwa [size]⟩

/-- A table reads the words of its code. -/
theorem reads_decode {lengths : List Nat} (fits : Fits lengths) :
    Reads (build lengths).decode (wordSpelling lengths) where
  complete := by
    rintro source symbol word wellFormed ⟨hasWord, rfl⟩ begins
    have filled := wellFormed.takes_ensure 8
    rcases decode_cases lengths wellFormed with
      ⟨found, after, run, foundWord, meets, taken⟩ | slow
    · have same : found = symbol := by
        rcases List.prefix_or_prefix_of_prefix meets begins with less | more
        · exact eq_of_wordBits_begins fits foundWord hasWord less
        · exact (eq_of_wordBits_begins fits hasWord foundWord more).symm
      subst same
      exact ⟨after, run, taken⟩
    · have kept : (source.ensure 8).bits = source.bits := filled.bits
      rw [← kept] at begins
      obtain ⟨after, run, taken⟩ :=
        (reads_decodeSlow fits).complete filled.wellFormed ⟨hasWord, rfl⟩ begins
      exact ⟨after, slow.trans run, by simpa using filled.trans taken⟩
  sound := by
    intro source after symbol wellFormed ended
    have filled := wellFormed.takes_ensure 8
    rcases decode_cases lengths wellFormed with
      ⟨found, reached, run, foundWord, meets, taken⟩ | slow
    · rw [run] at ended
      cases ended
      exact ⟨_, ⟨foundWord, rfl⟩, meets, taken⟩
    · have kept : (source.ensure 8).bits = source.bits := filled.bits
      rw [slow] at ended
      obtain ⟨word, spelled, begins, taken⟩ :=
        (reads_decodeSlow fits).sound filled.wellFormed ended
      rw [kept] at begins
      exact ⟨word, spelled, begins, by simpa using filled.trans taken⟩

/-! ## More data -/

variable {start longerStart : Nat}

theorem steady_symbolAt (table : DecodingTable) (index : Nat) :
    Steady start longerStart (table.symbolAt index) := by
  unfold symbolAt
  split
  · exact Follows.pure _
  · exact Steady.throw _

theorem steady_walk (table : DecodingTable) (counts : List Nat) (code first index : Nat) :
    Steady start longerStart (table.walk counts code first index) := by
  induction counts generalizing code first index with
  | nil => exact Steady.throw _
  | cons count counts ih =>
      exact (steady_getBits (by decide)).bind fun bit =>
        Follows.ite (Follows.ite (table.steady_symbolAt _) (Steady.throw _)) (ih _ _ _)

theorem steady_decodeSlow (table : DecodingTable) :
    Steady start longerStart table.decodeSlow :=
  table.steady_walk _ _ _ _

/-- With more data a single look may do what takes bit after bit without it; that gives no other
symbol, and no symbol where there was none. -/
theorem steady_decode {lengths : List Nat} (fits : Fits lengths) :
    Steady start longerStart (build lengths).decode := by
  intro source longer continues
  cases ended : (build lengths).decode source with
  | ok symbol after =>
      obtain ⟨word, spelled, begins, taken⟩ := (reads_decode fits).sound continues.wellFormed ended
      obtain ⟨later, run, longerTaken⟩ := (reads_decode fits).complete
        continues.longer_wellFormed spelled (begins.trans continues.begins)
      rw [run]
      exact .ok symbol (continues.taken taken longerTaken)
  | error failure after =>
      have filled := continues.longer_wellFormed.takes_ensure 8
      have ahead := continues.taken (continues.wellFormed.takes_ensure 8) filled
      have walked := (build lengths).steady_decodeSlow ahead
      rcases decode_cases lengths continues.wellFormed with ⟨symbol, reached, run, -⟩ | slow
      · rw [run] at ended
        cases ended
      · rw [← slow, ended] at walked
        rcases decode_cases lengths continues.longer_wellFormed with
          ⟨symbol, later, -, hasWord, begins, -⟩ | longerSlow
        · -- Bit by bit the word would have been found as well.
          have kept : (longer.ensure 8).bits = longer.bits := filled.bits
          rw [← kept] at begins
          obtain ⟨later, run, -⟩ :=
            (reads_decodeSlow fits).complete filled.wellFormed ⟨hasWord, rfl⟩ begins
          rw [run] at walked
          cases walked with
          | excused holds => exact .excused holds _ _
        · rwa [longerSlow]

end DecodingTable

end DeflateAtlas.Huffman
