import DeflateAtlas.Proofs.Deflate.Tables
import DeflateAtlas.Proofs.Inflate.Tokens
import Mathlib.Data.List.Basic

/-!
# The tables of the inflater

The inflater does not keep the table of a dynamic block: it fills in the lengths
of the code length code as they come and adds what each entry stands for to an
array.  Its bits are those of a table that can be sent, and the codes it goes on
with are built from the code lengths the table stands for.
-/

namespace DeflateAtlas.Inflate

open BitSource (numberSpelling)
open BitCursor Deflate Huffman

/-! ## The code length code -/

/-- Lengths put where the order of sending says they belong. -/
def place : (order sent : List Nat) → (lengths : Array Nat) → Array Nat
  | symbol :: order, length :: sent, lengths =>
      place order sent (lengths.setIfInBounds symbol length)
  | _, _, lengths => lengths

theorem size_place (order sent : List Nat) (lengths : Array Nat) :
    (place order sent lengths).size = lengths.size := by
  fun_induction place order sent lengths with
  | case1 symbol order length sent lengths ih => rw [ih, Array.size_setIfInBounds]
  | case2 => rfl

theorem getD_place {order sent : List Nat} (once : order.Nodup) (whole : sent.length = order.length)
    {lengths : Array Nat} {symbol : Nat} (inside : symbol < lengths.size) :
    (place order sent lengths).getD symbol 0 =
      sent.getD (order.idxOf symbol) (lengths.getD symbol 0) := by
  fun_induction place order sent lengths with
  | case1 first order length sent lengths ih =>
      rw [List.nodup_cons] at once
      simp only [List.length_cons, Nat.add_right_cancel_iff] at whole
      rw [ih once.2 whole (by rwa [Array.size_setIfInBounds])]
      by_cases same : first = symbol
      · subst same
        have absent : order.idxOf first = order.length := List.idxOf_eq_length_iff.mpr once.1
        rw [absent, ← whole, List.idxOf_cons_self]
        simp [inside]
      · rw [List.idxOf_cons_ne _ same]
        simp [same]
  | case2 order sent lengths short =>
      cases order with
      | nil =>
          rw [List.length_nil, List.length_eq_zero_iff] at whole
          rw [whole]
          rfl
      | cons first order =>
          cases sent with
          | nil => cases whole
          | cons length sent => exact (short _ _ _ _ rfl rfl).elim

/-- In the beginning of a list something has the same index, unless it lies behind. -/
theorem idxOf_take (order : List Nat) (number symbol : Nat) :
    (order.take number).idxOf symbol = order.idxOf symbol ∨
      (order.take number).idxOf symbol = (order.take number).length ∧
        (order.take number).length ≤ order.idxOf symbol := by
  conv => enter [1, 2]; rw [← List.take_append_drop number order]
  conv => enter [2, 2, 2]; rw [← List.take_append_drop number order]
  by_cases inside : symbol ∈ order.take number
  · exact .inl (List.idxOf_append_of_mem inside).symm
  · refine .inr ⟨List.idxOf_eq_length_iff.mpr inside, ?_⟩
    rw [List.idxOf_append_of_notMem inside]
    exact Nat.le_add_right _ _

/-- The lengths that were not sent are zero. -/
theorem place_codeLengthOrder {sent : List Nat} (few : sent.length ≤ 19) :
    (place (codeLengthOrder.take sent.length) sent (Array.replicate 19 0)).toList =
      codeLengthLengths sent := by
  have size := size_place (codeLengthOrder.take sent.length) sent (Array.replicate 19 0)
  have whole : sent.length = (codeLengthOrder.take sent.length).length := by
    rw [List.length_take]
    exact (Nat.min_eq_left few).symm
  have once : (codeLengthOrder.take sent.length).Nodup :=
    (List.take_sublist _ _).nodup (by decide : codeLengthOrder.Nodup)
  rw [Array.size_replicate] at size
  apply List.ext_getElem
  · rw [Array.length_toList, size, codeLengthLengths, List.length_map, List.length_range]
  · intro symbol inPlace inLengths
    have inside : symbol < 19 := by rwa [Array.length_toList, size] at inPlace
    have replaced : symbol < (Array.replicate 19 0 : Array Nat).size := by
      rwa [Array.size_replicate]
    have placed := getD_place once whole replaced
    rw [Array.getD_eq_getD_getElem?, Array.getElem?_eq_getElem (by rwa [size]),
      Option.getD_some] at placed
    simp only [codeLengthLengths, List.getElem_map, List.getElem_range, Array.getElem_toList]
    rw [placed, Array.getD_eq_getD_getElem?, Array.getElem?_replicate, if_pos inside,
      Option.getD_some]
    rcases idxOf_take codeLengthOrder sent.length symbol with same | ⟨none, behind⟩
    · rw [same]
    · rw [none, ← whole, List.getD_eq_getElem?_getD, List.getD_eq_getElem?_getD,
        List.getElem?_eq_none (Nat.le_refl _), List.getElem?_eq_none (by rwa [whole])]

theorem decodes_codeLengths (order : List Nat) (lengths : Array Nat) (position : Nat) :
    Decodes position (codeLengths order lengths) fun _ result word =>
      ∃ sent : List Nat, (sent.length = order.length ∧ ∀ length ∈ sent, length < 8) ∧
        result = place order sent lengths ∧ word = sent.flatMap (lowBits 3) := by
  induction order generalizing lengths position with
  | nil =>
      apply (Decodes.pure lengths).congr
      intro result word
      constructor
      · rintro ⟨rfl, rfl⟩
        exact ⟨[], ⟨rfl, List.forall_mem_nil _⟩, rfl, rfl⟩
      · rintro ⟨sent, ⟨none, -⟩, rfl, rfl⟩
        obtain rfl := List.eq_nil_of_length_eq_zero none
        exact ⟨rfl, rfl⟩
  | cons symbol order ih =>
      apply ((decodes_bits position 3).bind fun length _ _ => ih _ _).congr
      intro result word
      constructor
      · rintro ⟨length, _, _, ⟨small, rfl⟩, ⟨sent, ⟨whole, others⟩, rfl, rfl⟩, rfl⟩
        exact ⟨length :: sent, ⟨congrArg (· + 1) whole, List.forall_mem_cons.mpr ⟨small, others⟩⟩,
          rfl, rfl⟩
      · rintro ⟨sent, ⟨whole, all⟩, rfl, rfl⟩
        obtain ⟨length, sent, rfl⟩ := List.exists_cons_of_length_eq_add_one whole
        rw [List.forall_mem_cons] at all
        exact ⟨length, _, _, ⟨all.1, rfl⟩, ⟨sent, ⟨Nat.add_right_cancel whole, all.2⟩, rfl, rfl⟩,
          rfl⟩

theorem decodes_sentLengths {number : Nat} (few : number ≤ 19) (position : Nat) :
    Decodes position (codeLengths (codeLengthOrder.take number) (Array.replicate 19 0))
      fun _ result word =>
        ∃ sent : List Nat, (sent.length = number ∧ ∀ length ∈ sent, length < 8) ∧
          result.toList = codeLengthLengths sent ∧ word = sent.flatMap (lowBits 3) := by
  have order : codeLengthOrder.length = 19 := rfl
  apply (decodes_codeLengths _ _ position).congr
  intro result word
  rw [List.length_take, order, Nat.min_eq_left few]
  refine exists_congr fun sent => and_congr_right fun ⟨size, _⟩ => and_congr_left fun _ => ?_
  rw [← place_codeLengthOrder (size ▸ few), size, Array.toList_inj]

theorem codeLengthLengths_short {sent : List Nat} (small : ∀ length ∈ sent, length < 8) :
    ∀ length ∈ codeLengthLengths sent, length ≤ maxLength := by
  intro length inside
  simp only [codeLengthLengths, List.mem_map, List.mem_range] at inside
  obtain ⟨symbol, -, rfl⟩ := inside
  rw [List.getD_eq_getElem?_getD]
  cases found : sent[codeLengthOrder.idxOf symbol]? with
  | none => exact Nat.zero_le _
  | some length =>
      have bounded := small length (List.mem_of_getElem? found)
      simp only [Option.getD_some, maxLength]
      omega

/-! ## Entries -/

/-- The entries that begin with one symbol and repeat one length after it. -/
private theorem decodes_repeat {symbol width least previous value : Nat} {entry : Nat → LengthEntry}
    (spelled : ∀ count, (entry count).extra = lowBits width (count - least))
    (means : ∀ count, (entry count).lengths previous = List.replicate count value)
    (counts : ∀ result : LengthEntry, result.Valid ∧ result.symbol = symbol ↔
      ∃ count, (least ≤ count ∧ count < least + 2 ^ width) ∧ result = entry count)
    (lengths : Array Nat) (position : Nat) :
    Decodes position (do
        let extra ← bits width
        return lengths ++ List.replicate (least + extra) value)
      fun _ result word => ∃ entry : LengthEntry, (entry.Valid ∧ entry.symbol = symbol) ∧
        result = lengths ++ entry.lengths previous ∧ word = entry.extra := by
  apply ((decodes_bits position width).bind fun extra _ _ => Decodes.pure _).congr
  intro result word
  simp only [counts]
  constructor
  · rintro ⟨extra, _, _, ⟨small, rfl⟩, ⟨rfl, rfl⟩, rfl⟩
    refine ⟨_, ⟨least + extra, ⟨by omega, by omega⟩, rfl⟩, by rw [means], ?_⟩
    rw [List.append_nil, spelled, Nat.add_sub_cancel_left]
  · rintro ⟨_, ⟨count, bounds, rfl⟩, rfl, rfl⟩
    refine ⟨count - least, _, _, ⟨by omega, rfl⟩, ⟨?_, rfl⟩, ?_⟩
    · rw [means, Nat.add_sub_cancel' bounds.1]
    · rw [spelled, List.append_nil]

/-- What is read after the symbol of an entry. -/
private theorem decodes_afterSymbol (lengths : Array Nat) {symbol : Nat} (inside : symbol < 19)
    (position : Nat) :
    Decodes position (if symbol < 16 then
        pure (lengths.push symbol)
      else if symbol = 16 then
        match lengths.back? with
        | none => throw .corrupt
        | some previous => do
            let extra ← bits 2
            return lengths ++ List.replicate (3 + extra) previous
      else if symbol = 17 then do
        let extra ← bits 3
        return lengths ++ List.replicate (3 + extra) 0
      else do
        let extra ← bits 7
        return lengths ++ List.replicate (11 + extra) 0)
      fun _ result word => (lengths.size = 0 → symbol ≠ 16) ∧
        ∃ entry : LengthEntry, (entry.Valid ∧ entry.symbol = symbol) ∧
          result = lengths ++ entry.lengths (lengths.back?.getD 0) ∧ word = entry.extra := by
  by_cases repeats : symbol = 16
  · subst repeats
    rw [if_neg (by decide), if_pos rfl]
    cases last : lengths.back? with
    | none =>
        rw [Array.back?_eq_none_iff] at last
        apply (Decodes.throw _).congr
        intro result word
        simp [last]
    | some previous =>
        have some : lengths.size ≠ 0 := by
          intro none
          rw [Array.size_eq_zero_iff.mp none] at last
          cases last
        apply (decodes_repeat (fun _ => rfl) (fun _ => rfl)
          (fun _ => LengthEntry.valid_repeatPrevious_iff) lengths position).congr
        intro result word
        simp [some]
  have first : lengths.size = 0 → symbol ≠ 16 := fun _ => repeats
  rw [eq_true first]
  simp only [true_and]
  by_cases single : symbol < 16
  · rw [if_pos single]
    apply (Decodes.pure _).congr
    intro result word
    simp [LengthEntry.valid_single_iff (Nat.le_of_lt_succ single), LengthEntry.lengths,
      LengthEntry.extra]
  rw [if_neg single, if_neg repeats]
  by_cases few : symbol = 17
  · subst few
    rw [if_pos rfl]
    exact decodes_repeat (fun _ => rfl) (fun _ => rfl)
      (fun _ => LengthEntry.valid_fewZeros_iff) lengths position
  · rw [if_neg few]
    obtain rfl : symbol = 18 := by omega
    exact decodes_repeat (fun _ => rfl) (fun _ => rfl)
      (fun _ => LengthEntry.valid_manyZeros_iff) lengths position

section Entries

variable {sizes : List Nat} {code : Codebook} (few : sizes.length ≤ 19)
  (reads : ∀ position, Decodes position code.decode (wordSpelling sizes))
include few reads

theorem decodes_moreLengths (lengths : Array Nat) (position : Nat) :
    Decodes position (moreLengths code lengths) fun _ result word =>
      ∃ entry : LengthEntry, ((entry.Valid ∧ HasWord sizes entry.symbol) ∧
          (lengths.size = 0 → entry.symbol ≠ 16)) ∧
        result = lengths ++ entry.lengths (lengths.back?.getD 0) ∧ word = entry.bits sizes := by
  have listed {symbol : Nat} (hasWord : HasWord sizes symbol) : symbol < 19 := by
    obtain ⟨length, -, listed⟩ := hasWord_iff.mp hasWord
    have inside := (List.getElem?_eq_some_iff.mp listed).1
    omega
  apply ((reads position).bind fun symbol word spelled =>
    decodes_afterSymbol lengths (listed spelled.1) _).congr
  intro result word
  constructor
  · rintro ⟨symbol, _, _, ⟨hasWord, rfl⟩, ⟨first, entry, ⟨valid, rfl⟩, rfl, rfl⟩, rfl⟩
    exact ⟨entry, ⟨⟨valid, hasWord⟩, first⟩, rfl, rfl⟩
  · rintro ⟨entry, ⟨⟨valid, hasWord⟩, first⟩, rfl, rfl⟩
    exact ⟨_, _, _, ⟨hasWord, rfl⟩, ⟨first, entry, ⟨valid, rfl⟩, rfl, rfl⟩, rfl⟩

omit few reads in
theorem allLengths_of_ok {total : Nat} {lengths more : Array Nat} {cursor after : BitCursor}
    (short : lengths.size < total) (run : moreLengths code lengths cursor = .ok more after) :
    allLengths code total lengths cursor = allLengths code total more after := by
  conv => lhs; rw [allLengths, if_pos short]
  split
  · rename_i failed
    rw [run] at failed
    cases failed
  · rename_i ended
    rw [run] at ended
    cases ended
    rfl

omit few reads in
theorem size_append_lengths (lengths : Array Nat) (entry : LengthEntry) (previous : Nat) :
    (lengths ++ entry.lengths previous).size = lengths.size + entry.count := by
  rw [← Array.length_toList, Array.toList_appendList, List.length_append, Array.length_toList,
    LengthEntry.length_lengths]

theorem decodes_allLengths (total : Nat) (lengths : Array Nat) (position : Nat) :
    Decodes position (allLengths code total lengths) fun _ result word =>
      ∃ entries, (EntriesValid sizes lengths.size entries ∧
          lengths.size + covered entries = total) ∧
        result = (expandEntriesOnto entries lengths).toList ∧
        word = entries.flatMap (LengthEntry.bits sizes) := by
  have readsMore := decodes_moreLengths few reads
  intro cursor after result place inside
  constructor
  · intro ended
    fun_induction allLengths code total lengths cursor generalizing position with
    | case1 => cases ended
    | case2 lengths cursor short more middle run ih =>
        obtain ⟨_, ⟨entry, ⟨each, first⟩, rfl, rfl⟩, begins, rfl⟩ :=
          (readsMore lengths position _ _ _ place inside).mp run
        obtain ⟨_, ⟨entries, ⟨⟨others, -⟩, covers⟩, rfl, rfl⟩, continues, rfl⟩ :=
          ih _ rfl (inside.advance begins) ended
        rw [size_append_lengths, Nat.add_assoc] at covers
        rw [rest_advance] at continues
        refine ⟨_, ⟨entry :: entries, ⟨⟨List.forall_mem_cons.mpr ⟨each, others⟩, ?_⟩, ?_⟩, rfl,
          rfl⟩, append_prefix_iff.mpr ⟨begins, continues⟩, ?_⟩
        · rintro none other ⟨⟩
          exact first none
        · rwa [covered_cons]
        · rw [advance_advance, List.flatMap_cons, List.length_append]
    | case3 lengths cursor short done =>
        cases ended
        exact ⟨[], ⟨[], ⟨entriesValid_nil _ _, done⟩, rfl, rfl⟩, List.nil_prefix, rfl⟩
    | case4 => cases ended
  · rintro ⟨_, ⟨entries, ⟨valid, covers⟩, rfl, rfl⟩, begins, rfl⟩
    induction entries generalizing cursor lengths position with
    | nil =>
        rw [covered_nil, Nat.add_zero] at covers
        rw [allLengths, if_neg (Nat.not_lt.mpr (Nat.le_of_eq covers.symm)), if_pos covers]
        rfl
    | cons entry entries ih =>
        obtain ⟨each, first⟩ := valid
        rw [List.forall_mem_cons] at each
        have positive := each.1.1.count_pos
        rw [covered_cons] at covers
        rw [List.flatMap_cons] at begins ⊢
        obtain ⟨begins, continues⟩ := append_prefix_iff.mp begins
        have run := (readsMore lengths position _ _ _ place inside).mpr
          ⟨_, ⟨entry, ⟨each.1, fun none => first none entry rfl⟩, rfl, rfl⟩, begins, rfl⟩
        rw [← rest_advance] at continues
        have size := size_append_lengths lengths entry (lengths.back?.getD 0)
        rw [allLengths_of_ok (by omega) run,
          ih _ _ _ rfl (inside.advance begins) ⟨each.2, by omega⟩ (by omega) continues,
          advance_advance, List.length_append]
        rfl

end Entries

/-! ## Whole tables -/

theorem decodes_accept (code : Option Codebook) (position : Nat) :
    Decodes position (accept code) fun _ result word => code = some result ∧ word = [] := by
  cases code with
  | none =>
      apply (Decodes.throw _).congr
      intro result word
      simp
  | some code =>
      apply (Decodes.pure code).congr
      intro result word
      rw [Option.some.injEq, eq_comm]

private theorem decodes_afterSent (literalCount distanceCount : Nat) {sizes : List Nat}
    (few : sizes.length ≤ 19) (short : ∀ length ∈ sizes, length ≤ maxLength) (position : Nat) :
    Decodes position (do
        let code ← accept (Codebook.complete? sizes)
        let lengths ← allLengths code (literalCount + distanceCount) #[]
        let literals ← accept (Codebook.ofLengths? (lengths.take literalCount))
        let distances ← accept (Codebook.ofLengths? (lengths.drop literalCount))
        return (literals, distances))
      fun _ codes word => ∃ entries, Complete sizes ∧
        (EntriesValid sizes 0 entries ∧ covered entries = literalCount + distanceCount) ∧
        (Codebook.ofLengths? ((expandEntries entries).take literalCount) = some codes.1 ∧
          Codebook.ofLengths? ((expandEntries entries).drop literalCount) = some codes.2) ∧
        word = entries.flatMap (LengthEntry.bits sizes) := by
  have acceptance (code : Codebook) := @Codebook.complete?_eq_some_iff _ code short
  have reads {code : Codebook} (found : Codebook.complete? sizes = some code) (position : Nat) :
      Decodes position code.decode (wordSpelling sizes) := by
    obtain ⟨complete, rfl⟩ := (acceptance code).mp found
    exact Codebook.decodes_ofLengths complete.fits position
  apply ((decodes_accept _ position).bind fun code _ found =>
    (decodes_allLengths few (reads found.1) _ #[] _).bind fun lengths _ _ =>
      (decodes_accept _ _).bind fun literals _ _ => (decodes_accept _ _).bind fun distances _ _ =>
        Decodes.pure (literals, distances)).congr
  intro codes word
  constructor
  · rintro ⟨code, _, _, ⟨found, rfl⟩, ⟨_, _, _, ⟨entries, ⟨valid, covers⟩, rfl, rfl⟩,
      ⟨literals, _, _, ⟨foundLiterals, rfl⟩, ⟨distances, _, _, ⟨foundDistances, rfl⟩, ⟨rfl, rfl⟩,
      rfl⟩, rfl⟩, rfl⟩, rfl⟩
    rw [Array.size_empty, Nat.zero_add] at covers
    exact ⟨entries, ((acceptance code).mp found).1, ⟨valid, covers⟩,
      ⟨foundLiterals, foundDistances⟩, by simp⟩
  · rintro ⟨entries, complete, ⟨valid, covers⟩, ⟨foundLiterals, foundDistances⟩, rfl⟩
    exact ⟨_, _, _, ⟨(acceptance _).mpr ⟨complete, rfl⟩, rfl⟩, ⟨_, _, _,
      ⟨entries, ⟨valid, by rwa [Array.size_empty, Nat.zero_add]⟩, rfl, rfl⟩,
      ⟨codes.1, _, _, ⟨foundLiterals, rfl⟩, ⟨codes.2, _, _, ⟨foundDistances, rfl⟩, ⟨rfl, rfl⟩,
      rfl⟩, rfl⟩, rfl⟩, by simp⟩

/-- What is read is a table that can be sent, if the inflater accepts its codes. -/
theorem decodes_dynamicCodes (position : Nat) :
    Decodes position dynamicCodes fun _ codes word => ∃ header : DynamicHeader,
      (header.Valid ∧ Codebook.ofLengths? header.literalLengths = some codes.1 ∧
        Codebook.ofLengths? header.distanceLengths = some codes.2) ∧ word = header.bits := by
  have few {number position : Nat} {word : List Bool}
      (spelled : ∃ extra, numberSpelling 4 position extra word ∧ extra + 4 = number) :
      number ≤ 19 := by
    obtain ⟨extra, ⟨small, -⟩, rfl⟩ := spelled
    omega
  have sized {sizes : Array Nat} {sent : List Nat} (small : ∀ length ∈ sent, length < 8)
      (same : sizes.toList = codeLengthLengths sent) :
      sizes.toList.length ≤ 19 ∧ ∀ length ∈ sizes.toList, length ≤ maxLength := by
    rw [same]
    exact ⟨by simp [codeLengthLengths], codeLengthLengths_short small⟩
  apply (((decodes_bits position 5).map (· + 257)).bind fun literals _ _ =>
    ((decodes_bits _ 5).map (· + 1)).bind fun distances _ _ =>
      ((decodes_bits _ 4).map (· + 4)).bind fun number _ spelled =>
        (Decodes.throw .corrupt).ite ((decodes_sentLengths (few spelled) _).bind
          fun sizes _ ⟨_, sent, same, _⟩ =>
            have bounds := sized sent.2 same
            decodes_afterSent literals distances bounds.1 bounds.2 _)).congr
  intro codes word
  constructor
  · rintro ⟨_, _, _, ⟨literals, ⟨-, rfl⟩, rfl⟩, ⟨_, _, _, ⟨distances, ⟨-, rfl⟩, rfl⟩, ⟨_, _, _,
      ⟨sent, ⟨few, rfl⟩, rfl⟩, spelled, rfl⟩, rfl⟩, rfl⟩
    split at spelled
    · exact spelled.elim
    · obtain ⟨sizes, _, _, ⟨sentLengths, ⟨size, small⟩, same, rfl⟩,
        ⟨entries, complete, ⟨valid, covers⟩, found, rfl⟩, rfl⟩ := spelled
      rw [same] at complete valid ⊢
      exact ⟨⟨literals + 257, distances + 1, sentLengths, entries⟩,
        ⟨⟨by dsimp only; omega, by dsimp only; omega, by dsimp only; omega, small, complete, valid,
          covers⟩, found⟩, (DynamicHeader.bits_mk size literals distances entries).symm⟩
  · rintro ⟨⟨literalCount, distanceCount, sentLengths, entries⟩, ⟨valid, found⟩, rfl⟩
    obtain ⟨literals, rfl⟩ := Nat.exists_eq_add_of_le' valid.literals.1
    obtain ⟨distances, rfl⟩ := Nat.exists_eq_add_of_le' valid.distances.1
    obtain ⟨sent, size⟩ := Nat.exists_eq_add_of_le' valid.sent.1
    have few : ¬ (286 < literals + 257 ∨ 30 < distances + 1) := by
      rintro (many | many)
      · exact absurd valid.literals.2 (Nat.not_le.mpr many)
      · exact absurd valid.distances.2 (Nat.not_le.mpr many)
    have bounds := valid.sent.2
    refine ⟨_, _, _, ⟨literals, ⟨by omega, rfl⟩, rfl⟩, ⟨_, _, _, ⟨distances, ⟨by omega, rfl⟩, rfl⟩,
      ⟨_, _, _, ⟨sent, ⟨by dsimp only at size bounds; omega, rfl⟩, rfl⟩, ?_, rfl⟩, rfl⟩,
      DynamicHeader.bits_mk size _ _ _⟩
    rw [if_neg few]
    exact ⟨(codeLengthLengths sentLengths).toArray, _, _,
      ⟨sentLengths, ⟨size, valid.sentLengths⟩, rfl, rfl⟩,
      ⟨entries, valid.complete, ⟨valid.entries, valid.covers⟩, found, rfl⟩, rfl⟩

end DeflateAtlas.Inflate
