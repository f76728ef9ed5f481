import DeflateAtlas.Proofs.Inflate.Streams

/-!
# The inflater looks at nothing but what it takes

A run of an action is local if it takes a word from the data and would end in the
same way, with the same value, wherever else this word stands at the same place.
What comes after the word does not matter.  Runs that decode a spelling are local,
and so are those of the inflater, whatever codes a stream sends.
-/

namespace DeflateAtlas.Inflate

open BitCursor
open BitSource (Spelling)
open Deflate

variable {α β : Type}

/-- A run has taken a word, and is the same on other data in which this word follows at the same
place. -/
def LocalRun (action : Action α) (cursor : BitCursor) (value : α) (after : BitCursor) : Prop :=
  ∃ word, word <+: cursor.rest ∧ after = cursor.advance word.length ∧
    ∀ ⦃other : BitCursor⦄, other.offset = cursor.offset → other.Inside → word <+: other.rest →
      action other = .ok value (other.advance word.length)

/-- All runs of an action that end well are local. -/
def Local (action : Action α) : Prop :=
  ∀ ⦃cursor after : BitCursor⦄ ⦃value : α⦄, cursor.Inside → action cursor = .ok value after →
    LocalRun action cursor value after

theorem LocalRun.inside {action : Action α} {cursor after : BitCursor} {value : α}
    (run : LocalRun action cursor value after) (inside : cursor.Inside) : after.Inside := by
  obtain ⟨word, begins, rfl, -⟩ := run
  exact inside.advance begins

/-- A local run and another one from where it ends make up a local run of what does both. -/
theorem LocalRun.trans {first : Action α} {second whole : Action β}
    {cursor middle after : BitCursor} {value : α} {result : β}
    (early : LocalRun first cursor value middle) (late : LocalRun second middle result after)
    (joins : ∀ before reached, first before = .ok value reached → whole before = second reached) :
    LocalRun whole cursor result after := by
  obtain ⟨word, begins, rfl, again⟩ := early
  obtain ⟨more, continues, rfl, onward⟩ := late
  rw [rest_advance] at continues
  refine ⟨word ++ more, append_prefix_iff.mpr ⟨begins, continues⟩, ?_, ?_⟩
  · rw [advance_advance, List.length_append]
  · intro other place inside otherBegins
    obtain ⟨otherBegins, otherContinues⟩ := append_prefix_iff.mp otherBegins
    rw [← rest_advance] at otherContinues
    have further : (other.advance word.length).offset = (cursor.advance word.length).offset := by
      rw [offset_advance, offset_advance, place]
    rw [joins _ _ (again place inside otherBegins),
      onward further (inside.advance otherBegins) otherContinues, advance_advance,
      List.length_append]

theorem Decodes.isLocal {action : Action α} {spelling : Spelling α}
    (decodes : ∀ position, Decodes position action spelling) : Local action := by
  intro cursor after value inside ended
  obtain ⟨word, spelled, begins, rfl⟩ := (decodes _ cursor after value rfl inside).mp ended
  exact ⟨word, begins, rfl, fun other place otherInside otherBegins =>
    (decodes _ other _ value place otherInside).mpr ⟨word, spelled, otherBegins, rfl⟩⟩

namespace Local

protected theorem pure (value : α) : Local (pure value : Action α) := by
  rintro cursor after _ inside ⟨⟩
  exact ⟨[], List.nil_prefix, rfl, fun _ _ _ _ => rfl⟩

protected theorem throw (defect : Defect) : Local (throw defect : Action α) := by
  rintro cursor after value inside ⟨⟩

protected theorem bind {action : Action α} {next : α → Action β} (first : Local action)
    (rest : ∀ value, Local (next value)) : Local (action >>= next) := by
  intro cursor after value inside ended
  obtain ⟨middle, reached, run, continued⟩ := bind_eq_ok_iff.mp ended
  have early := first inside run
  exact early.trans (rest middle (early.inside inside) continued) fun _ _ => bind_of_ok

protected theorem ite {condition : Prop} [Decidable condition] {yes no : Action α}
    (whenTrue : Local yes) (whenFalse : Local no) :
    Local (if condition then yes else no) := by
  split
  · exact whenTrue
  · exact whenFalse

end Local

/-! ## Blocks -/

theorem local_step (literals distances : Codebook) (output : Bytes) :
    Local (step literals distances output) :=
  (Decodes.isLocal literals.decodes_decode).bind fun _ =>
    (Local.pure _).ite <| (Local.pure _).ite <|
      (Decodes.isLocal (decodes_number lengthRanges _)).bind fun _ =>
        (Decodes.isLocal distances.decodes_decode).bind fun symbol =>
          (Decodes.isLocal (decodes_number distanceRanges symbol)).bind fun _ => Local.pure _

theorem local_tokens (literals distances : Codebook) (output : Bytes) :
    Local (tokens literals distances output) := by
  intro cursor after value inside ended
  fun_induction tokens literals distances output cursor with
  | case1 => cases ended
  | case2 output cursor longer middle run =>
      cases ended
      have early := local_step literals distances output inside run
      exact early.trans (Local.pure _ (early.inside inside) rfl) fun _ _ => tokens_of_end
  | case3 output cursor longer middle run ih =>
      have early := local_step literals distances output inside run
      exact early.trans (ih (early.inside inside) ended) fun _ _ => tokens_of_token

theorem local_content (kind : Nat) (output : Bytes) : Local (content kind output) := by
  unfold content
  split
  · exact Local.throw _
  · exact Decodes.isLocal (decodes_stored · output)
  · exact local_tokens _ _ output
  · exact (Decodes.isLocal decodes_dynamicCodes).bind fun _ => local_tokens _ _ output

theorem local_block (output : Bytes) : Local (block output) :=
  (Decodes.isLocal (decodes_bits · 3)).bind fun _ =>
    (local_content _ output).bind fun _ => Local.pure _

theorem local_blocks (output : Bytes) : Local (blocks output) := by
  intro cursor after value inside ended
  fun_induction blocks output cursor with
  | case1 => cases ended
  | case2 output cursor longer middle run =>
      cases ended
      have early := local_block output inside run
      exact early.trans (Local.pure _ (early.inside inside) rfl) fun _ _ => blocks_of_final
  | case3 output cursor longer middle run ih =>
      have early := local_block output inside run
      exact early.trans (ih (early.inside inside) ended) fun _ _ => blocks_of_other

theorem consumes_blocks (output : Bytes) : Consumes BitCursor.remaining (blocks output) := by
  intro before value after ended
  fun_induction blocks output before with
  | case1 => cases ended
  | case2 output cursor longer middle run =>
      cases ended
      exact consumes_block output run
  | case3 output cursor longer middle run ih =>
      exact Nat.lt_trans (ih ended) (consumes_block output run)

end DeflateAtlas.Inflate
