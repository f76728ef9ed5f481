import DeflateAtlas.Proofs.Deflate.Steady
import DeflateAtlas.Proofs.Puff.Encoding

/-!
# Encoding data that is cut off

The encoder looks only at the bits that it takes.  Two runs are compared, one on
data that goes on where the data of the other one ends.  Up to that end they find
the same blocks; if the shorter data has a final block or is corrupt, the longer
data is no different; and a run on the shorter data fails for no other reason than
its end if the longer data is in order.
-/

namespace DeflateAtlas

open BitSource

namespace Deflate

variable {start longerStart : Nat}

/-- A span moved to a later place. -/
def BlockSpan.shift (span : BlockSpan) (distance : Nat) : BlockSpan :=
  { span with extent := span.extent.shift distance }

/-- The same blocks, seen from two places in the data. -/
def SameSpans (start longerStart : Nat) (spans longerSpans : Array BlockSpan) : Prop :=
  spans.toList.map (·.shift longerStart) = longerSpans.toList.map (·.shift start)

/-- The blocks of the first run come first in the second run. -/
def SpansBegin (start longerStart : Nat) (spans longerSpans : Array BlockSpan) : Prop :=
  spans.toList.map (·.shift longerStart) <+: longerSpans.toList.map (·.shift start)

/-- A parse has come to a final block. -/
def Parse.Final (parse : Parse) : Prop :=
  ∃ span ∈ parse.blocks, span.last = true

/-- What a parse says about a parse of longer data. -/
inductive Parse.Foretells (start longerStart : Nat) (shorter longer : Parse) : Prop
  /-- The final block is there, so both are done. -/
  | final (ended : shorter.result = .ok ()) (longerEnded : longer.result = .ok ())
      (same : SameSpans start longerStart shorter.blocks longer.blocks)
      (continues : Transcript.Continues start longerStart shorter.transcript longer.transcript)
  /-- There is no further block in the shorter data. -/
  | few (ended : shorter.result = .ok ()) (noFinal : ¬ shorter.Final)
      (begins : SpansBegin start longerStart shorter.blocks longer.blocks)
  /-- The shorter data ends in a block. -/
  | cut (failure : Failure) (short : RanOut failure) (failed : shorter.result = .error failure)
      (begins : SpansBegin start longerStart shorter.blocks longer.blocks)
  /-- Both are corrupt. -/
  | corrupt (failure : Failure) (failed : shorter.result = .error failure)
      (longerFailed : longer.result = .error failure)
      (same : SameSpans start longerStart shorter.blocks longer.blocks)
      (elements : shorter.transcript.elements = longer.transcript.elements)

theorem Transcript.Continues.not_few {before longer : Transcript}
    (continues : Transcript.Continues start longerStart before longer)
    (many : ¬ before.remaining < 8) : ¬ longer.remaining < 8 := by
  have more := continues.source.length_le
  rw [length_bits, length_bits] at more
  simp only [Transcript.remaining] at many ⊢
  omega

/-- A parse keeps the blocks that are already known. -/
theorem prefix_blocks_parseBlocks (spans : Array BlockSpan) (before : Transcript) :
    spans.toList <+: (parseBlocks spans before).blocks.toList := by
  fun_induction parseBlocks spans before with
  | case1 => exact List.prefix_rfl
  | case2 => exact List.prefix_rfl
  | case3 spans before many start after step span =>
      rw [Array.toList_push]
      exact List.prefix_append _ _
  | case4 spans before many start last after step span =>
      rename_i notLast ih
      rw [Array.toList_push] at ih
      exact (List.prefix_append _ _).trans ih

theorem SameSpans.begins {spans longerSpans : Array BlockSpan}
    (same : SameSpans start longerStart spans longerSpans) :
    SpansBegin start longerStart spans longerSpans :=
  ⟨[], (List.append_nil _).trans same⟩

theorem SameSpans.begins_parseBlocks {spans longerSpans : Array BlockSpan}
    (same : SameSpans start longerStart spans longerSpans) (longer : Transcript) :
    SpansBegin start longerStart spans (parseBlocks longerSpans longer).blocks := by
  rw [SpansBegin, same]
  exact (prefix_blocks_parseBlocks longerSpans longer).map _

/-- A block of both runs is the same one. -/
theorem SameSpans.push {spans longerSpans : Array BlockSpan}
    (same : SameSpans start longerStart spans longerSpans) {before longer after later : Transcript}
    (first : Transcript.Continues start longerStart before longer)
    (second : Transcript.Continues start longerStart after later) (last : Bool) :
    SameSpans start longerStart
      (spans.push
        ⟨⟨before.source.offset, after.source.offset - before.source.offset⟩, last⟩)
      (longerSpans.push
        ⟨⟨longer.source.offset, later.source.offset - longer.source.offset⟩, last⟩) := by
  have place := first.source.place
  have stop := second.source.place
  have length : after.source.offset - before.source.offset =
      later.source.offset - longer.source.offset := by omega
  rw [SameSpans] at same ⊢
  rw [Array.toList_push, Array.toList_push, List.map_append, List.map_append, same]
  simp [BlockSpan.shift, Extent.shift, place, length]

theorem parseBlocks_foretells {spans longerSpans : Array BlockSpan} {before longer : Transcript}
    (same : SameSpans start longerStart spans longerSpans)
    (noFinal : ∀ span ∈ spans, span.last = false)
    (continues : Transcript.Continues start longerStart before longer) :
    Parse.Foretells start longerStart (parseBlocks spans before)
      (parseBlocks longerSpans longer) := by
  fun_induction parseBlocks spans before generalizing longerSpans longer with
  | case1 spans before few =>
      refine .few rfl ?_ (same.begins_parseBlocks longer)
      rintro ⟨span, member, final⟩
      rw [noFinal span member] at final
      cases final
  | case2 spans before many failure after step =>
      have agree := steady_readBlock continues
      rw [step] at agree
      have longerMany := continues.not_few many
      rcases agree.eq_error rfl with short | ⟨later, failed, elements⟩
      · exact .cut failure short rfl (same.begins_parseBlocks longer)
      · rw [parseBlocks_of_error failed longerMany]
        exact .corrupt failure rfl rfl same elements
  | case3 spans before many start after =>
      rename_i step span
      have agree := steady_readBlock continues
      rw [step] at agree
      obtain ⟨later, run, stillContinues⟩ := agree.eq_ok rfl
      rw [parseBlocks_of_ok run (continues.not_few many)]
      exact .final rfl rfl (same.push continues stillContinues true) stillContinues
  | case4 spans before many start last after step span =>
      rename_i notLast ih
      have agree := steady_readBlock continues
      rw [step] at agree
      obtain ⟨later, run, stillContinues⟩ := agree.eq_ok rfl
      rw [parseBlocks_of_ok run (continues.not_few many)]
      dsimp only
      rw [if_neg notLast]
      refine ih (same.push continues stillContinues last) ?_ stillContinues
      intro other member
      rcases Array.mem_push.mp member with earlier | rfl
      · exact noFinal other earlier
      · exact Bool.eq_false_iff.mpr notLast

theorem parse_foretells {shorter longer : BitSource} (wellFormed : shorter.WellFormed)
    (longerWellFormed : longer.WellFormed) (aligned : shorter.offset % 8 = longer.offset % 8)
    (begins : shorter.bits <+: longer.bits) :
    Parse.Foretells shorter.offset longer.offset (parse shorter) (parse longer) :=
  parseBlocks_foretells rfl (by simp)
    ⟨⟨wellFormed, longerWellFormed, Nat.add_comm _ _, aligned, begins⟩, rfl⟩

namespace Parse.Foretells

variable {shorter longer : Parse}

theorem begins (foretells : shorter.Foretells start longerStart longer) :
    SpansBegin start longerStart shorter.blocks longer.blocks := by
  cases foretells with
  | final _ _ same => exact same.begins
  | few _ _ begins => exact begins
  | cut _ _ _ begins => exact begins
  | corrupt _ _ _ same => exact same.begins

theorem of_final (foretells : shorter.Foretells start longerStart longer)
    (ended : shorter.result = .ok ()) (final : shorter.Final) :
    longer.result = .ok () ∧ SameSpans start longerStart shorter.blocks longer.blocks ∧
      Transcript.Continues start longerStart shorter.transcript longer.transcript := by
  cases foretells with
  | final _ longerEnded same continues => exact ⟨longerEnded, same, continues⟩
  | few _ noFinal => exact absurd final noFinal
  | cut _ _ failed => cases failed.symm.trans ended
  | corrupt _ failed => cases failed.symm.trans ended

theorem of_corrupt (foretells : shorter.Foretells start longerStart longer) {failure : Failure}
    (failed : shorter.result = .error failure) (corrupt : ¬ RanOut failure) :
    longer.result = .error failure ∧ SameSpans start longerStart shorter.blocks longer.blocks ∧
      shorter.transcript.elements = longer.transcript.elements := by
  cases foretells with
  | final ended => cases ended.symm.trans failed
  | few ended => cases ended.symm.trans failed
  | cut _ short cut =>
      cases cut.symm.trans failed
      exact absurd short corrupt
  | corrupt _ found longerFailed same elements =>
      cases found.symm.trans failed
      exact ⟨longerFailed, same, elements⟩

theorem of_longer_ok (foretells : shorter.Foretells start longerStart longer)
    (longerEnded : longer.result = .ok ()) :
    shorter.result = .ok () ∨ ∃ failure, shorter.result = .error failure ∧ RanOut failure := by
  cases foretells with
  | final ended => exact .inl ended
  | few ended => exact .inl ended
  | cut failure short failed => exact .inr ⟨failure, failed, short⟩
  | corrupt _ _ longerFailed => cases longerFailed.symm.trans longerEnded

end Parse.Foretells

/-- A block of the reserved type is refused. -/
theorem readBlock_of_reserved {source : BitSource} {last : Bool} (wellFormed : source.WellFormed)
    (begins : [last, true, true] <+: source.bits) (elements : Array Element) :
    ∃ after, readBlock ⟨source, elements⟩ = .error .invalidBlockType after := by
  have opens : [last] ++ lowBits 2 3 <+: source.bits := begins
  obtain ⟨first, flag, taken⟩ := reads_getBit.complete wellFormed rfl
    ((List.prefix_append _ _).trans opens)
  obtain ⟨second, kind, -⟩ := (reads_getBits (by decide : 2 ≤ 32)).complete taken.wellFormed
    ⟨by decide, rfl⟩ (taken.prefix_of_append opens)
  refine ⟨⟨second, elements⟩, ?_⟩
  rw [readBlock, bind_of_ok (reading_of_ok flag elements), readBlockAfter,
    bind_of_ok (reading_of_ok kind elements)]
  rfl

theorem takes_parse {source : BitSource} (wellFormed : source.WellFormed)
    (ended : (parse source).result = .ok ()) :
    ∃ width, Takes source (parse source).transcript.source width := by
  obtain ⟨blocks, -, -, -, -, taken, -⟩ := parseBlocks_sound wellFormed ended
  exact ⟨_, taken⟩

end Deflate

namespace PuffEncoder

open Deflate Puff

theorem map_shift_blocks (source : BitSource) (sink : Sink) (distance : Nat) :
    (encode source sink).blocks.map (·.shift distance) =
      ((parse source).blocks.toList.map (·.shift distance)).map (·.extent) := by
  rw [encode, List.map_map, List.map_map]
  rfl

theorem map_shift_blocks_eq {shorter longer : BitSource} (sink : Sink)
    (same : SameSpans shorter.offset longer.offset (parse shorter).blocks (parse longer).blocks) :
    (encode shorter sink).blocks.map (·.shift longer.offset) =
      (encode longer sink).blocks.map (·.shift shorter.offset) := by
  rw [map_shift_blocks, map_shift_blocks, same]

/-- What is written depends on the elements, and on whether the waiting literals are written. -/
theorem sink_eq {shorter longer : BitSource} (sink : Sink)
    (result : (parse longer).result = (parse shorter).result)
    (elements : (parse shorter).transcript.elements = (parse longer).transcript.elements) :
    (encode longer sink).sink = (encode shorter sink).sink := by
  simp only [encode]
  rw [result, elements]

/-- What a run on data that is cut off says about the same data with more behind it: its blocks come
first, behind its final block nothing matters, and what it finds corrupt is corrupt.  It only runs
out of data if the longer data is in order. -/
theorem encode_cutOff {shorter longer : BitSource} (reached : shorter.Reachable)
    (longerReached : longer.Reachable) (aligned : shorter.offset % 8 = longer.offset % 8)
    (begins : shorter.bits <+: longer.bits) (sink : Sink) :
    (encode shorter sink).blocks.map (·.shift longer.offset) <+:
        (encode longer sink).blocks.map (·.shift shorter.offset) ∧
      ((encode shorter sink).result = .ok () → (parse shorter).Final →
        (encode longer sink).result = .ok () ∧
          (encode shorter sink).blocks.map (·.shift longer.offset) =
            (encode longer sink).blocks.map (·.shift shorter.offset) ∧
          (encode longer sink).sink = (encode shorter sink).sink ∧
          ∃ width, Takes shorter (encode shorter sink).source width ∧
            Takes longer (encode longer sink).source width) ∧
      (∀ failure, (encode shorter sink).result = .error failure →
        failure.kind = .invalidDeflate →
        (encode longer sink).result = .error failure ∧
          (encode shorter sink).blocks.map (·.shift longer.offset) =
            (encode longer sink).blocks.map (·.shift shorter.offset) ∧
          (encode longer sink).sink = (encode shorter sink).sink) ∧
      ((encode longer sink).result = .ok () →
        (encode shorter sink).result = .ok () ∨
          ∃ failure, (encode shorter sink).result = .error failure ∧
            failure.kind = .shortRead) := by
  have wellFormed := reached.wellFormed
  have longerWellFormed := longerReached.wellFormed
  have foretells := parse_foretells wellFormed longerWellFormed aligned begins
  refine ⟨?_, fun ended final => ?_, fun failure failed corrupt => ?_, fun longerEnded => ?_⟩
  · rw [map_shift_blocks, map_shift_blocks]
    exact foretells.begins.map _
  · obtain ⟨longerEnded, same, continues⟩ := foretells.of_final ended final
    obtain ⟨width, taken⟩ := takes_parse wellFormed ended
    obtain ⟨longerWidth, longerTaken⟩ := takes_parse longerWellFormed longerEnded
    have widths : longerWidth = width := by
      have place := continues.source.place
      rw [taken.offset, longerTaken.offset] at place
      omega
    subst widths
    exact ⟨longerEnded, map_shift_blocks_eq sink same,
      sink_eq sink (longerEnded.trans ended.symm) continues.elements, longerWidth, taken,
      longerTaken⟩
  · have complete : ¬ RanOut failure := by
      rw [RanOut, corrupt]
      decide
    obtain ⟨longerFailed, same, elements⟩ := foretells.of_corrupt failed complete
    exact ⟨longerFailed, map_shift_blocks_eq sink same,
      sink_eq sink (longerFailed.trans failed.symm) elements⟩
  · exact foretells.of_longer_ok longerEnded

/-- Behind a block that stores the letter a comes another byte; a block of the reserved type comes
before a byte; and the block that stores the letter is cut off. -/
theorem encode_cutOff_letter :
    (encode (Operation.getByte.run (ofBytes #[0, 1, 1, 0, 254, 255, 97, 7]))
        (Sink.appending #[])).result = .ok () ∧
      (encode (ofBytes #[7, 0]) (Sink.appending #[])).result = .error .invalidBlockType ∧
      ((encode (ofBytes #[1, 1, 0, 254]) (Sink.appending #[])).result = .ok () ∨
        ∃ failure, (encode (ofBytes #[1, 1, 0, 254]) (Sink.appending #[])).result =
            .error failure ∧ failure.kind = .shortRead) := by
  have letter := reachable_ofBytes #[1, 1, 0, 254, 255, 97]
  have valid : BlocksValid 0 [⟨.stored 0 #[97], some 0⟩] := blocksValid_stored 0 (by decide)
  obtain ⟨after, run, -⟩ := parseBlocks_complete letter.wellFormed valid (by decide)
    (.inl ⟨_, rfl, rfl⟩) #[] #[]
  have ended : (encode (ofBytes #[1, 1, 0, 254, 255, 97]) (Sink.appending #[])).result = .ok () :=
    congrArg Parse.result run
  have final : (parse (ofBytes #[1, 1, 0, 254, 255, 97])).Final := by
    have blocks : (parse (ofBytes #[1, 1, 0, 254, 255, 97])).blocks = #[⟨⟨0, 48⟩, true⟩] :=
      congrArg Parse.blocks run
    rw [Parse.Final, blocks]
    exact ⟨_, Array.mem_singleton.mpr rfl, rfl⟩
  refine ⟨?_, ?_, ?_⟩
  · have later := (reachable_ofBytes #[0, 1, 1, 0, 254, 255, 97, 7]).run .getByte
    exact ((encode_cutOff letter later rfl (by decide) (Sink.appending #[])).2.1 ended final).1
  · have begins : [true, true, true] <+: (ofBytes #[7]).bits := by decide
    obtain ⟨reserved, failed⟩ :=
      readBlock_of_reserved (reachable_ofBytes #[7]).wellFormed begins #[]
    refine ((encode_cutOff (reachable_ofBytes #[7]) (reachable_ofBytes #[7, 0]) rfl (by decide)
      (Sink.appending #[])).2.2.1 .invalidBlockType ?_ rfl).1
    exact congrArg Parse.result (parseBlocks_of_error failed (by decide))
  · exact (encode_cutOff (reachable_ofBytes #[1, 1, 0, 254]) letter rfl (by decide)
      (Sink.appending #[])).2.2.2 ended

end PuffEncoder

end DeflateAtlas
