import DeflateAtlas.Proofs.BitSource.Cursor
import DeflateAtlas.Proofs.BitSource.Reachable
import DeflateAtlas.Proofs.Huffman.Decoding

/-!
# A single look decodes what the walk decodes

A table may decode a symbol by one look at eight bits or bit by bit.  It makes no
difference which: a word that is found at a single look is found by the walk too, and
where no word is found at a look the walk decides anyway, from the same place though
with more bytes loaded.  What a walk does depends on its place alone.
-/

namespace DeflateAtlas

namespace BitSource

variable {α : Type} {source other : BitSource}

theorem WellFormed.samePlace (wellFormed : source.WellFormed) : SamePlace source source :=
  ⟨_, _, ⟨wellFormed, rfl, rfl⟩, ⟨wellFormed, rfl, rfl⟩⟩

/-- What an action gives depends on the place of the source and not on what is loaded there. -/
abbrev IgnoresLoading (action : Action α) : Prop :=
  Follows SamePlace SamePlace SamePlace (fun _ => False) action action

theorem ignoresLoading_getBits {width : Nat} (narrow : width ≤ 32) :
    IgnoresLoading (getBits width) := by
  intro source other same
  obtain ⟨bits, place, stands, otherStands⟩ := id same
  rcases Nat.lt_or_ge source.bits.length width with few | available
  · obtain ⟨after, run, takes⟩ := getBits_of_lt stands.wellFormed narrow few
    rw [← same.bits_eq] at few
    obtain ⟨otherAfter, otherRun, otherTakes⟩ := getBits_of_lt otherStands.wellFormed narrow few
    rw [run, otherRun]
    exact .error _ (same.taken takes otherTakes)
  · obtain ⟨after, run, takes⟩ := getBits_of_le stands.wellFormed narrow available
    rw [← same.bits_eq] at available
    obtain ⟨otherAfter, otherRun, otherTakes⟩ :=
      getBits_of_le otherStands.wellFormed narrow available
    rw [run, otherRun, same.bits_eq]
    exact .ok _ (same.taken takes otherTakes)

end BitSource

namespace Huffman.DecodingTable

open BitSource

theorem ignoresLoading_symbolAt (table : DecodingTable) (index : Nat) :
    IgnoresLoading (table.symbolAt index) := by
  unfold symbolAt
  split
  · exact Follows.pure _
  · exact Follows.throw _ fun _ _ same => same

theorem ignoresLoading_walk (table : DecodingTable) (counts : List Nat) (code first index : Nat) :
    IgnoresLoading (table.walk counts code first index) := by
  induction counts generalizing code first index with
  | nil => exact Follows.throw _ fun _ _ same => same
  | cons count counts ih =>
      exact (ignoresLoading_getBits (by decide)).bind fun bit =>
        Follows.ite (Follows.ite (table.ignoresLoading_symbolAt _)
          (Follows.throw _ fun _ _ same => same)) (ih _ _ _)

theorem agree_decodeSlow {lengths : List Nat} (fits : Fits lengths) {source : BitSource}
    (wellFormed : source.WellFormed) :
    Agree SamePlace SamePlace (fun _ => False) ((build lengths).decode source)
      ((build lengths).decodeSlow source) := by
  have same := wellFormed.samePlace
  rcases decode_cases lengths wellFormed with ⟨symbol, after, run, hasWord, begins, takes⟩ | slow
  · obtain ⟨walked, slowRun, slowTakes⟩ :=
      (reads_decodeSlow fits).complete wellFormed ⟨hasWord, rfl⟩ begins
    rw [run, slowRun]
    exact .ok symbol (same.taken takes slowTakes)
  · have loaded : SamePlace (source.ensure 8) source :=
      same.taken (wellFormed.takes_ensure 8) (Takes.refl wellFormed)
    rw [slow]
    exact (build lengths).ignoresLoading_walk _ _ _ _ loaded

/-- Whichever way a symbol is decoded, it is the same symbol or the same failure, and the source is
left at the same bit. -/
theorem decode_agrees_decodeSlow {lengths : List Nat} {allowIncomplete : Bool}
    {table : DecodingTable} (built : ofLengths lengths allowIncomplete = .ok table)
    {source : BitSource} (reachable : source.Reachable) :
    Agree SamePlace SamePlace (fun _ => False) (table.decode source) (table.decodeSlow source) ∧
      (table.decode source =
        match table.shortcut? source with
        | some found => .ok found.symbol ((source.ensure 8).discard found.length)
        | none => table.decodeSlow (source.ensure 8)) ∧
      ∀ found, table.shortcut? source = some found →
        8 ≤ source.remaining ∧ HasWord lengths found.symbol ∧
          wordBits lengths found.symbol <+: source.bits ∧
          found.length = (wordBits lengths found.symbol).length := by
  obtain ⟨rfl, accepted⟩ := ofLengths_eq_ok_iff.mp built
  have wellFormed := reachable.wellFormed
  refine ⟨agree_decodeSlow accepted.fits wellFormed, (build lengths).decode_eq source, ?_⟩
  intro found taken
  obtain ⟨loaded, hasWord, meets, size⟩ := shortcut?_sound wellFormed taken
  refine ⟨?_, hasWord, meets.trans (List.take_prefix _ _), size⟩
  rw [← remaining_ensure source 8, BitSource.remaining]
  exact Nat.le_trans loaded (Nat.le_add_left _ _)

/-- With a single word of one bit, a look decodes a zero; a one is walked from, and fails. -/
theorem decode_agrees_decodeSlow_singleBit :
    let table := build [0, 1]
    let source := ofBytes #[0b10, 0]
    let later := left (getBits 1) source
    ofLengths [0, 1] true = .ok table ∧
      table.shortcut? source = some ⟨1, 1⟩ ∧ [false] <+: source.bits ∧
      table.shortcut? later = none ∧
      Agree SamePlace SamePlace (fun _ => False) (table.decode later) (table.decodeSlow later) := by
  intro table source later
  have built : ofLengths [0, 1] true = .ok table :=
    ofLengths_eq_ok_iff.mpr ⟨rfl, .inr ⟨rfl, .inr (by decide)⟩⟩
  have start : source.Reachable := reachable_ofBytes _
  have looked : table.shortcut? source = some ⟨1, 1⟩ := by decide +kernel
  obtain ⟨-, -, sound⟩ := decode_agrees_decodeSlow built start
  obtain ⟨-, -, begins, -⟩ := sound _ looked
  exact ⟨built, looked, begins, by decide +kernel,
    (decode_agrees_decodeSlow built (start.run (.getBits 1))).1⟩

end Huffman.DecodingTable

end DeflateAtlas
