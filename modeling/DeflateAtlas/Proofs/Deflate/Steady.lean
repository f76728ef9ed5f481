import DeflateAtlas.Proofs.Deflate.Blocks

/-!
# Parsing data that is cut off

The readers of a block are steady: if they run out of data, more data may make
them go on, but nothing else that they find depends on what comes behind it.  Of
two transcripts under way, one on data that is cut off, both stand behind the same
elements until the shorter data ends.
-/

namespace DeflateAtlas.Deflate

open BitSource Huffman

variable {α : Type} {start longerStart : Nat} {literals distances : List Nat}

/-! ## Tokens -/

theorem steady_readNumber {ranges : Array NumberRange}
    (narrow : ∀ range ∈ ranges.toList, range.extraBits ≤ 32) (index : Nat) (unknown : Failure) :
    Steady start longerStart (readNumber ranges index unknown) := by
  unfold readNumber
  split
  · rename_i range listed
    have member := Array.mem_toList_iff.mpr (Array.mem_of_getElem? listed)
    exact (steady_getBits (narrow range member)).bind fun _ => Follows.pure _
  · exact Steady.throw _

theorem steady_readReference (distancesFit : Fits distances) (lengthSymbol : Nat) :
    Steady start longerStart (readReference (BlockCodes.build literals distances) lengthSymbol) :=
  (steady_readNumber narrow_lengthRanges _ _).bind fun _ =>
    (DecodingTable.steady_decode distancesFit).bind fun _ =>
      (steady_readNumber narrow_distanceRanges _ _).bind fun _ => Follows.pure _

theorem steady_readToken (literalsFit : Fits literals) (distancesFit : Fits distances) :
    Steady start longerStart (readToken (BlockCodes.build literals distances)) :=
  (DecodingTable.steady_decode literalsFit).bind fun symbol =>
    Follows.ite (Follows.pure _) <|
      Follows.ite (Follows.pure _) <|
        (steady_readReference distancesFit symbol).bind fun _ => Follows.pure _

/-! ## Tables -/

theorem LengthEntry.steady_read (symbol : Nat) :
    Steady start longerStart (LengthEntry.read symbol) :=
  Follows.ite (Follows.pure _) <|
    Follows.ite ((steady_getBits (by decide)).bind fun _ => Follows.pure _) <|
      Follows.ite ((steady_getBits (by decide)).bind fun _ => Follows.pure _) <|
        Follows.ite ((steady_getBits (by decide)).bind fun _ => Follows.pure _) <|
          Steady.throw _

namespace DynamicHeader

theorem steady_readSentLengths (number : Nat) :
    Steady start longerStart (readSentLengths number) := by
  induction number with
  | zero => exact Follows.pure _
  | succ number ih =>
      exact (steady_getBits (by decide)).bind fun _ => ih.bind fun _ => Follows.pure _

theorem steady_readEntry {lengths : List Nat} (fits : Fits lengths) (covered : Nat) :
    Steady start longerStart (readEntry (DecodingTable.build lengths) covered) :=
  (DecodingTable.steady_decode fits).bind fun symbol =>
    Follows.ite (Steady.throw _) (LengthEntry.steady_read symbol)

theorem steady_readEntriesOnto {lengths : List Nat} (fits : Fits lengths) (total covered : Nat)
    (entries : List LengthEntry) :
    Steady start longerStart
      (readEntriesOnto (DecodingTable.build lengths) total covered entries) := by
  intro source longer continues
  fun_induction readEntriesOnto (DecodingTable.build lengths) total covered entries source
    generalizing longer with
  | case1 covered entries source inside failure after step =>
      have agree := steady_readEntry fits covered continues
      rw [step] at agree
      rcases agree.eq_error rfl with short | ⟨later, failed, -⟩
      · exact .excused short _ _
      · rw [readEntriesOnto_of_error inside failed]
        exact .error failure trivial
  | case2 covered entries source inside entry middle step ih =>
      have agree := steady_readEntry fits covered continues
      rw [step] at agree
      obtain ⟨later, run, stillContinues⟩ := agree.eq_ok rfl
      rw [readEntriesOnto_of_ok inside run]
      exact ih stillContinues
  | case3 entries source all =>
      rw [readEntriesOnto, if_neg all, if_pos rfl]
      exact .ok _ continues
  | case4 covered entries source all beyond =>
      rw [readEntriesOnto, if_neg all, if_neg beyond]
      exact .error _ trivial

theorem steady_read : Steady start longerStart read := by
  refine (steady_getBits (by decide)).bind fun _ => (steady_getBits (by decide)).bind fun _ =>
    (steady_getBits (by decide)).bind fun _ => Follows.ite (Steady.throw _) ?_
  refine (steady_readSentLengths _).bind fun sentLengths => ?_
  split
  · exact Steady.throw _
  · rename_i code built
    obtain ⟨rfl, accepted⟩ := DecodingTable.ofLengths_eq_ok_iff.mp built
    exact (steady_readEntriesOnto accepted.fits _ _ _).bind fun _ => Follows.pure _

end DynamicHeader

/-! ## Stored bytes -/

/-- The length of a stored block is checked against the rest of the data, which may be longer; if it
is too short, only data is wanting. -/
theorem steady_getBytes_checked (length : Nat) :
    Steady start longerStart (do
      let source ← get
      if source.remaining < length * 8 then
        throw .storedPastEnd
      else
        BitSource.getBytes length) := by
  intro source longer continues
  have more := continues.length_le
  rw [length_bits, length_bits] at more
  change Agree _ _ _
    ((if source.remaining < length * 8 then throw .storedPastEnd
      else BitSource.getBytes length : BitSource.Action Bytes) source)
    ((if longer.remaining < length * 8 then throw .storedPastEnd
      else BitSource.getBytes length : BitSource.Action Bytes) longer)
  by_cases few : source.remaining < length * 8
  · rw [if_pos few]
    have short : RanOut .storedPastEnd := rfl
    exact .excused short _ _
  · rw [if_neg few, if_neg (by omega)]
    exact steady_getBytesOnto length _ continues

theorem steady_readStoredBytes : Steady start longerStart readStoredBytes :=
  (steady_getBits (by decide)).bind fun _ => (steady_getBits (by decide)).bind fun _ =>
    Follows.ite (Steady.throw _) (steady_getBytes_checked _)

/-! ## Transcripts -/

/-- Of two transcripts with the same elements, the second one has more data. -/
structure Transcript.Continues (start longerStart : Nat) (before longer : Transcript) : Prop where
  source : BitSource.Continues start longerStart before.source longer.source
  elements : before.elements = longer.elements

/-- More data changes neither what a parser gives and adds nor, unless it ran out of data, how it
fails. -/
abbrev SteadyParser (start longerStart : Nat) (action : Transcript.Action α) : Prop :=
  Follows (Transcript.Continues start longerStart) (Transcript.Continues start longerStart)
    (fun before longer => before.elements = longer.elements) RanOut action action

namespace SteadyParser

protected theorem throw (failure : Failure) :
    SteadyParser start longerStart (throw failure : Transcript.Action α) :=
  Follows.throw failure fun _ _ continues => continues.elements

protected theorem reading {action : BitSource.Action α} (steady : Steady start longerStart action) :
    SteadyParser start longerStart (Transcript.reading action) := by
  rintro ⟨source, elements⟩ ⟨longer, _⟩ ⟨continues, rfl⟩
  have agree := steady continues
  simp only [Transcript.reading]
  dsimp only at agree
  generalize action source = outcome at agree ⊢
  generalize action longer = longerOutcome at agree ⊢
  cases agree with
  | ok value stillContinues => exact .ok value ⟨stillContinues, rfl⟩
  | error failure => exact .error failure rfl
  | excused short => exact .excused short _ _

protected theorem emit (element : Element) :
    SteadyParser start longerStart (Transcript.emit element) := by
  rintro ⟨source, elements⟩ ⟨longer, _⟩ ⟨continues, rfl⟩
  exact .ok () ⟨continues, rfl⟩

end SteadyParser

theorem steady_readTokens (literalsFit : Fits literals) (distancesFit : Fits distances) :
    SteadyParser start longerStart (readTokens (BlockCodes.build literals distances)) := by
  have steady := @steady_readToken start longerStart _ _ literalsFit distancesFit
  intro before longer continues
  fun_induction readTokens (BlockCodes.build literals distances) before generalizing longer with
  | case1 source elements failure after step =>
      obtain ⟨longer, _⟩ := longer
      obtain ⟨continues, rfl⟩ := continues
      have agree := steady continues
      rw [step] at agree
      rcases agree.eq_error rfl with short | ⟨later, failed, -⟩
      · exact .excused short _ _
      · rw [readTokens_of_error failed]
        exact .error failure rfl
  | case2 source elements after step =>
      obtain ⟨longer, _⟩ := longer
      obtain ⟨continues, rfl⟩ := continues
      have agree := steady continues
      rw [step] at agree
      obtain ⟨later, run, stillContinues⟩ := agree.eq_ok rfl
      rw [readTokens_of_end run]
      exact .ok () ⟨stillContinues, rfl⟩
  | case3 source elements token after step ih =>
      obtain ⟨longer, _⟩ := longer
      obtain ⟨continues, rfl⟩ := continues
      have agree := steady continues
      rw [step] at agree
      obtain ⟨later, run, stillContinues⟩ := agree.eq_ok rfl
      rw [readTokens_of_token run]
      exact ih ⟨stillContinues, rfl⟩

theorem steady_readContent (kind : BlockKind) :
    SteadyParser start longerStart (readContent kind) := by
  cases kind with
  | stored =>
      exact (SteadyParser.reading steady_getPadding).bind fun _ =>
        (SteadyParser.reading steady_readStoredBytes).bind fun _ => SteadyParser.emit _
  | fixed =>
      rw [readContent, BlockCodes.fixed_eq]
      exact steady_readTokens BlockCodes.complete_fixedLiteralLengths.fits
        BlockCodes.complete_fixedDistanceLengths.fits
  | dynamic =>
      refine (SteadyParser.reading DynamicHeader.steady_read).bind fun header => ?_
      cases built : BlockCodes.ofHeader header with
      | error failure => exact SteadyParser.throw failure
      | ok codes =>
          obtain ⟨rfl, -, valid⟩ := DynamicHeader.ofHeader_eq_ok_iff.mp built
          exact (SteadyParser.emit _).bind fun _ =>
            steady_readTokens valid.literals_fit valid.distances_fit

theorem steady_readBlockAfter (last : Bool) :
    SteadyParser start longerStart (readBlockAfter last) := by
  refine (SteadyParser.reading (steady_getBits (by decide))).bind fun number => ?_
  split
  · exact SteadyParser.throw _
  · refine (SteadyParser.emit _).bind fun _ => (steady_readContent _).bind fun _ => ?_
    exact Follows.ite
      ((SteadyParser.reading steady_getPadding).bind fun _ =>
        (SteadyParser.emit _).bind fun _ => Follows.pure _)
      (Follows.pure _)

theorem steady_readBlock : SteadyParser start longerStart readBlock :=
  (SteadyParser.reading steady_getBit).bind steady_readBlockAfter

end DeflateAtlas.Deflate
