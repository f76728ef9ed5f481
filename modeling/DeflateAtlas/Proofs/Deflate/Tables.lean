import DeflateAtlas.Proofs.Deflate.Tokens

/-!
# Reading the tables of dynamic blocks

Entries are read until the code lengths they stand for reach the announced
number, so the loop carries what is covered so far.  Every entry stands for at
least one code length; that is why the entries of a table that can be sent
are read to the last.
-/

namespace DeflateAtlas.Deflate

open BitSource Huffman

namespace LengthEntry

variable {entry : LengthEntry}

theorem valid_single_iff {length : Nat} (short : length ≤ 15) :
    entry.Valid ∧ entry.symbol = length ↔ entry = .single length := by
  cases entry <;> simp [Valid, LengthEntry.symbol] <;> omega

theorem valid_repeatPrevious_iff :
    entry.Valid ∧ entry.symbol = 16 ↔
      ∃ count, (3 ≤ count ∧ count < 3 + 2 ^ 2) ∧ entry = .repeatPrevious count := by
  cases entry <;> simp [Valid, LengthEntry.symbol] <;> omega

theorem valid_fewZeros_iff :
    entry.Valid ∧ entry.symbol = 17 ↔
      ∃ count, (3 ≤ count ∧ count < 3 + 2 ^ 3) ∧ entry = .fewZeros count := by
  cases entry <;> simp [Valid, LengthEntry.symbol] <;> omega

theorem valid_manyZeros_iff :
    entry.Valid ∧ entry.symbol = 18 ↔
      ∃ count, (11 ≤ count ∧ count < 11 + 2 ^ 7) ∧ entry = .manyZeros count := by
  cases entry <;> simp [Valid, LengthEntry.symbol] <;> omega

/-- The entries that begin with one symbol and count what they stand for after it. -/
private theorem reads_repeat {symbol width least : Nat} (narrow : width ≤ 32)
    {entry : Nat → LengthEntry}
    (spelled : ∀ count, (entry count).extra = lowBits width (count - least))
    (counts : ∀ result : LengthEntry, result.Valid ∧ result.symbol = symbol ↔
      ∃ count, (least ≤ count ∧ count < least + 2 ^ width) ∧ result = entry count) :
    Reads (do
        let extra ← getBits width
        return entry (least + extra))
      fun _ result word => (result.Valid ∧ result.symbol = symbol) ∧ word = result.extra := by
  apply ((reads_getBits narrow).bind fun extra => Reads.pure _).congr
  intro position result word
  rw [counts]
  constructor
  · rintro ⟨extra, _, _, ⟨small, rfl⟩, ⟨rfl, rfl⟩, rfl⟩
    exact ⟨⟨least + extra, ⟨by omega, by omega⟩, rfl⟩, by simp [spelled]⟩
  · rintro ⟨⟨count, bounds, rfl⟩, rfl⟩
    exact ⟨count - least, _, _, ⟨by omega, rfl⟩, ⟨by rw [Nat.add_sub_cancel' bounds.1], rfl⟩,
      by simp [spelled]⟩

theorem reads_read (symbol : Nat) :
    Reads (read symbol) fun _ entry word =>
      (entry.Valid ∧ entry.symbol = symbol) ∧ word = entry.extra := by
  unfold read
  by_cases single : symbol ≤ 15
  · rw [if_pos single]
    apply (Reads.pure _).congr
    intro position entry word
    rw [valid_single_iff single]
    exact and_congr_right fun same => by rw [same, extra]
  rw [if_neg single]
  by_cases repeats : symbol = 16
  · subst repeats
    rw [if_pos rfl]
    exact reads_repeat (by decide) (fun _ => rfl) fun _ => valid_repeatPrevious_iff
  rw [if_neg repeats]
  by_cases few : symbol = 17
  · subst few
    rw [if_pos rfl]
    exact reads_repeat (by decide) (fun _ => rfl) fun _ => valid_fewZeros_iff
  rw [if_neg few]
  by_cases many : symbol = 18
  · subst many
    rw [if_pos rfl]
    exact reads_repeat (by decide) (fun _ => rfl) fun _ => valid_manyZeros_iff
  rw [if_neg many]
  apply (Reads.throw _).congr
  intro position entry word
  constructor
  · exact False.elim
  · rintro ⟨⟨valid, rfl⟩, -⟩
    have bounded := valid.symbol_lt
    omega

end LengthEntry

namespace DynamicHeader

theorem reads_readSentLengths (number : Nat) :
    Reads (readSentLengths number) fun _ lengths word =>
      (lengths.length = number ∧ ∀ length ∈ lengths, length < 8) ∧
        word = lengths.flatMap (lowBits 3) := by
  induction number with
  | zero =>
      apply (Reads.pure _).congr
      intro position lengths word
      constructor
      · rintro ⟨rfl, rfl⟩
        simp
      · rintro ⟨⟨none, -⟩, rfl⟩
        obtain rfl := List.eq_nil_of_length_eq_zero none
        exact ⟨rfl, rfl⟩
  | succ number ih =>
      apply ((reads_getBits (by decide : 3 ≤ 32)).bind fun length =>
        ih.bind fun lengths => Reads.pure (length :: lengths)).congr
      intro position lengths word
      constructor
      · rintro ⟨length, _, _, ⟨small, rfl⟩, ⟨lengths, _, _, ⟨⟨size, others⟩, rfl⟩, ⟨rfl, rfl⟩,
          rfl⟩, rfl⟩
        refine ⟨⟨by simp [size], ?_⟩, by simp⟩
        intro other member
        rcases List.mem_cons.mp member with rfl | later
        · exact small
        · exact others other later
      · rintro ⟨⟨size, all⟩, rfl⟩
        obtain ⟨length, lengths, rfl⟩ := List.exists_cons_of_length_eq_add_one size
        rw [List.forall_mem_cons] at all
        exact ⟨length, _, _, ⟨all.1, rfl⟩, ⟨lengths, _, _, ⟨⟨by simpa using size, all.2⟩, rfl⟩,
          ⟨rfl, rfl⟩, rfl⟩, by simp⟩

theorem readEntriesOnto_of_ok {code : DecodingTable} {total before : Nat}
    {source after : BitSource} {entry : LengthEntry} (inside : before < total)
    (run : readEntry code before source = .ok entry after) (seen : List LengthEntry) :
    readEntriesOnto code total before seen source =
      readEntriesOnto code total (before + entry.count) (entry :: seen) after := by
  conv => lhs; rw [readEntriesOnto, if_pos inside]
  split
  · rename_i failed
    rw [run] at failed
    cases failed
  · rename_i step
    rw [run] at step
    cases step
    rfl

theorem readEntriesOnto_of_error {code : DecodingTable} {total before : Nat}
    {source after : BitSource} {failure : Failure} (inside : before < total)
    (run : readEntry code before source = .error failure after) (seen : List LengthEntry) :
    readEntriesOnto code total before seen source = .error failure after := by
  rw [readEntriesOnto, if_pos inside]
  split
  · rename_i failed
    rw [run] at failed
    cases failed
    rfl
  · rename_i step
    rw [run] at step
    cases step

section Entries

variable {lengths : List Nat} (fits : Fits lengths)
include fits

theorem reads_readEntry (before : Nat) :
    Reads (readEntry (DecodingTable.build lengths) before) fun _ entry word =>
      ((entry.Valid ∧ HasWord lengths entry.symbol) ∧ (before = 0 → entry.symbol ≠ 16)) ∧
        word = entry.bits lengths := by
  apply ((DecodingTable.reads_decode fits).bind fun symbol =>
    (Reads.throw _).ite (LengthEntry.reads_read symbol)).congr
  intro position entry word
  constructor
  · rintro ⟨symbol, _, _, ⟨hasWord, rfl⟩, spelled, rfl⟩
    by_cases repeats : symbol = 16 ∧ before = 0
    · rw [if_pos repeats] at spelled
      exact spelled.elim
    · rw [if_neg repeats] at spelled
      obtain ⟨⟨valid, rfl⟩, rfl⟩ := spelled
      exact ⟨⟨⟨valid, hasWord⟩, fun first same => repeats ⟨same, first⟩⟩, rfl⟩
  · rintro ⟨⟨⟨valid, hasWord⟩, first⟩, rfl⟩
    refine ⟨entry.symbol, _, _, ⟨hasWord, rfl⟩, ?_, rfl⟩
    rw [if_neg fun repeats => first repeats.2 repeats.1]
    exact ⟨⟨valid, rfl⟩, rfl⟩

theorem reads_readEntriesOnto (total before : Nat) (seen : List LengthEntry) :
    Reads (readEntriesOnto (DecodingTable.build lengths) total before seen)
      fun _ result word => ∃ entries, result = seen.reverse ++ entries ∧
        (EntriesValid lengths before entries ∧ before + covered entries = total) ∧
          word = entries.flatMap (LengthEntry.bits lengths) where
  complete := by
    rintro source result word wellFormed ⟨entries, rfl, ⟨valid, covers⟩, rfl⟩ begins
    induction entries generalizing source before seen with
    | nil =>
        refine ⟨source, ?_, Takes.refl wellFormed⟩
        rw [readEntriesOnto]
        simp only [covered_nil, Nat.add_zero] at covers
        simp [covers]
    | cons entry entries ih =>
        obtain ⟨each, first⟩ := valid
        rw [List.forall_mem_cons] at each
        have positive := each.1.1.count_pos
        rw [covered_cons] at covers
        rw [List.flatMap_cons] at begins
        obtain ⟨middle, run, taken⟩ := (reads_readEntry fits before).complete wellFormed
          ⟨⟨each.1, fun none => first none entry (by simp)⟩, rfl⟩
          ((List.prefix_append _ _).trans begins)
        replace begins := taken.prefix_of_append begins
        obtain ⟨after, rest, moreTaken⟩ := ih (before + entry.count) (entry :: seen)
          taken.wellFormed ⟨each.2, fun none => by omega⟩ (by omega) begins
        refine ⟨after, ?_, ?_⟩
        · rw [readEntriesOnto_of_ok (by omega) run, rest]
          simp
        · rw [List.flatMap_cons, List.length_append]
          exact taken.trans moreTaken
  sound := by
    intro source after result wellFormed ended
    fun_induction readEntriesOnto (DecodingTable.build lengths) total before seen source with
    | case1 => cases ended
    | case2 before seen source inside entry middle step ih =>
        obtain ⟨_, ⟨⟨each, first⟩, rfl⟩, begins, taken⟩ :=
          (reads_readEntry fits before).sound wellFormed step
        obtain ⟨_, ⟨entries, rfl, ⟨⟨others, -⟩, covers⟩, rfl⟩, continues, moreTaken⟩ :=
          ih taken.wellFormed ended
        refine ⟨_, ⟨entry :: entries, by simp, ⟨⟨?_, ?_⟩, ?_⟩, rfl⟩, ?_, ?_⟩
        · rw [List.forall_mem_cons]
          exact ⟨each, others⟩
        · intro none other isFirst
          rw [List.head?_cons, Option.mem_some_iff] at isFirst
          subst isFirst
          exact first none
        · rw [covered_cons, ← Nat.add_assoc]
          exact covers
        · rw [List.flatMap_cons]
          exact (taken.append_prefix_iff begins).mpr continues
        · rw [List.flatMap_cons, List.length_append]
          exact taken.trans moreTaken
    | case3 seen source done =>
        cases ended
        exact ⟨[], ⟨[], by simp, ⟨entriesValid_nil _ _, rfl⟩, rfl⟩, List.nil_prefix,
          Takes.refl wellFormed⟩
    | case4 => cases ended

end Entries

private theorem reads_afterSent (literalCount distanceCount : Nat) (sentLengths : List Nat) :
    Reads (match DecodingTable.ofLengths (codeLengthLengths sentLengths) false with
      | .error failure => throw failure
      | .ok code => do
          let entries ← readEntriesOnto code (literalCount + distanceCount) 0 []
          return ({ literalCount, distanceCount, sentLengths, entries } : DynamicHeader))
      fun _ header word => ∃ entries,
        header = { literalCount, distanceCount, sentLengths, entries } ∧
          Complete (codeLengthLengths sentLengths) ∧
          (EntriesValid (codeLengthLengths sentLengths) 0 entries ∧
            covered entries = literalCount + distanceCount) ∧
          word = entries.flatMap (LengthEntry.bits (codeLengthLengths sentLengths)) := by
  have acceptance := @DecodingTable.ofLengths_eq_ok_iff (codeLengthLengths sentLengths) false
  split
  · rename_i failure rejected
    apply (Reads.throw failure).congr
    intro position header word
    constructor
    · exact False.elim
    · rintro ⟨_, _, complete, _⟩
      have accepted := acceptance.mpr ⟨rfl, .inl complete⟩
      rw [rejected] at accepted
      cases accepted
  · rename_i code built
    obtain ⟨rfl, complete | ⟨⟨⟩, -⟩⟩ := acceptance.mp built
    apply ((reads_readEntriesOnto complete.fits _ 0 []).bind fun entries =>
      Reads.pure _).congr
    intro position header word
    constructor
    · rintro ⟨_, _, _, ⟨entries, rfl, ⟨valid, covers⟩, rfl⟩, ⟨rfl, rfl⟩, rfl⟩
      rw [Nat.zero_add] at covers
      exact ⟨_, rfl, complete, ⟨valid, covers⟩, by rw [List.append_nil]⟩
    · rintro ⟨entries, rfl, -, ⟨valid, covers⟩, rfl⟩
      rw [← Nat.zero_add (covered entries)] at covers
      exact ⟨_, _, _, ⟨entries, rfl, ⟨valid, covers⟩, rfl⟩, ⟨rfl, rfl⟩,
        by rw [List.append_nil]⟩

theorem bits_mk {sent : Nat} {sentLengths : List Nat} (size : sentLengths.length = sent + 4)
    (literals distances : Nat) (entries : List LengthEntry) :
    bits ⟨literals + 257, distances + 1, sentLengths, entries⟩ =
      lowBits 5 literals ++ (lowBits 5 distances ++ (lowBits 4 sent ++
        (sentLengths.flatMap (lowBits 3) ++
          entries.flatMap (LengthEntry.bits (codeLengthLengths sentLengths))))) := by
  simp [bits, size]

theorem reads_read : Reads read fun _ header word => header.Valid ∧ word = header.bits := by
  apply ((reads_getBits (by decide : 5 ≤ 32)).bind fun literals =>
    (reads_getBits (by decide : 5 ≤ 32)).bind fun distances =>
      (reads_getBits (by decide : 4 ≤ 32)).bind fun sent =>
        (Reads.throw _).ite ((reads_readSentLengths (sent + 4)).bind fun sentLengths =>
          reads_afterSent (literals + 257) (distances + 1) sentLengths)).congr
  intro position header word
  constructor
  · rintro ⟨literals, _, _, ⟨-, rfl⟩, ⟨distances, _, _, ⟨-, rfl⟩, ⟨sent, _, _, ⟨few, rfl⟩, spelled,
      rfl⟩, rfl⟩, rfl⟩
    split at spelled
    · exact spelled.elim
    · obtain ⟨sentLengths, _, _, ⟨⟨size, small⟩, rfl⟩, ⟨entries, rfl, complete, ⟨valid, covers⟩,
        rfl⟩, rfl⟩ := spelled
      exact ⟨⟨by dsimp only; omega, by dsimp only; omega, by dsimp only; omega, small, complete,
        valid, covers⟩, (bits_mk size literals distances entries).symm⟩
  · rintro ⟨valid, rfl⟩
    obtain ⟨literalCount, distanceCount, sentLengths, entries⟩ := header
    obtain ⟨literals, rfl⟩ := Nat.exists_eq_add_of_le' valid.literals.1
    obtain ⟨distances, rfl⟩ := Nat.exists_eq_add_of_le' valid.distances.1
    obtain ⟨sent, size⟩ := Nat.exists_eq_add_of_le' valid.sent.1
    have few : ¬ (286 < literals + 257 ∨ 30 < distances + 1) := by
      rintro (many | many)
      · exact absurd valid.literals.2 (Nat.not_le.mpr many)
      · exact absurd valid.distances.2 (Nat.not_le.mpr many)
    have bounds := valid.sent.2
    refine ⟨literals, _, _, ⟨by omega, rfl⟩, ⟨distances, _, _, ⟨by omega, rfl⟩, ⟨sent, _, _,
      ⟨by dsimp only at size bounds; omega, rfl⟩, ?_, rfl⟩, rfl⟩, bits_mk size _ _ _⟩
    rw [if_neg few]
    exact ⟨sentLengths, _, _, ⟨⟨size, valid.sentLengths⟩, rfl⟩,
      ⟨entries, rfl, valid.complete, ⟨valid.entries, valid.covers⟩, rfl⟩, rfl⟩

theorem not_wordless {lengths : List Nat} {symbol : Nat} (hasWord : HasWord lengths symbol) :
    ¬ Wordless lengths := by
  intro wordless
  obtain ⟨length, positive, listed⟩ := hasWord_iff.mp hasWord
  have none := wordless length (List.mem_of_getElem? listed)
  omega

theorem codesValid_iff {header : DynamicHeader} (hasWord : HasWord header.literalLengths endOfBlock) :
    header.CodesValid ↔ DecodingTable.Accepted header.literalLengths true ∧
      DecodingTable.Accepted header.distanceLengths true := by
  constructor
  · rintro ⟨literals, distances⟩
    constructor
    · rcases literals with complete | single
      · exact .inl complete
      · exact .inr ⟨rfl, .inr single⟩
    · rcases distances with complete | single | wordless
      · exact .inl complete
      · exact .inr ⟨rfl, .inr single⟩
      · exact .inr ⟨rfl, .inl wordless⟩
  · rintro ⟨literals, distances⟩
    constructor
    · rcases literals with complete | ⟨-, wordless | single⟩
      · exact .inl complete
      · exact absurd wordless (not_wordless hasWord)
      · exact .inr single
    · rcases distances with complete | ⟨-, wordless | single⟩
      · exact .inl complete
      · exact .inr (.inr wordless)
      · exact .inr (.inl single)

theorem ofHeader_eq_ok_iff {header : DynamicHeader} {codes : BlockCodes} :
    BlockCodes.ofHeader header = .ok codes ↔
      codes = BlockCodes.build header.literalLengths header.distanceLengths ∧
        HasWord header.literalLengths endOfBlock ∧ header.CodesValid := by
  unfold BlockCodes.ofHeader
  by_cases hasWord : HasWord header.literalLengths endOfBlock
  · rw [if_neg (Nat.ne_of_gt hasWord), BlockCodes.ofLengths_eq_ok_iff, codesValid_iff hasWord]
    simp only [hasWord, true_and]
  · have none : header.literalLengths.getD endOfBlock 0 = 0 := Nat.eq_zero_of_not_pos hasWord
    rw [if_pos none]
    constructor
    · rintro ⟨⟩
    · rintro ⟨-, holds, -⟩
      exact absurd holds hasWord

theorem CodesValid.literals_fit {header : DynamicHeader} (valid : header.CodesValid) :
    Fits header.literalLengths := by
  rcases valid.literals with complete | single
  · exact complete.fits
  · exact single.fits

theorem CodesValid.distances_fit {header : DynamicHeader} (valid : header.CodesValid) :
    Fits header.distanceLengths := by
  rcases valid.distances with complete | single | wordless
  · exact complete.fits
  · exact single.fits
  · exact wordless.fits

end DynamicHeader

end DeflateAtlas.Deflate
