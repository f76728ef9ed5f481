import DeflateAtlas.Proofs.Deflate.Spelling

/-!
# The code lengths that entries stand for

Entries are taken one after another: each adds to the code lengths that are there, and
a copy adds the last of these again, whichever entry has put it there.  So the entries
of a table must not begin with a copy, and they cover both codes without a break: where
the literal code ends, an entry may go on with the distance code.
-/

namespace DeflateAtlas.Deflate

open Huffman

/-! ## How many there are -/

theorem size_expandEntriesOnto (entries : List LengthEntry) (before : Array Nat) :
    (expandEntriesOnto entries before).size = before.size + covered entries := by
  induction entries generalizing before with
  | nil => rfl
  | cons entry entries ih =>
      rw [expandEntriesOnto, ih, covered_cons, ← Array.length_toList, Array.toList_appendList,
        List.length_append, Array.length_toList, LengthEntry.length_lengths, Nat.add_assoc]

theorem length_expandEntries (entries : List LengthEntry) :
    (expandEntries entries).length = covered entries := by
  rw [expandEntries, Array.length_toList, size_expandEntriesOnto, List.size_toArray,
    List.length_nil, Nat.zero_add]

/-! ## How long they are -/

theorem LengthEntry.Valid.lengths_short {entry : LengthEntry} (valid : entry.Valid) {previous : Nat}
    (short : previous ≤ maxLength) : ∀ length ∈ entry.lengths previous, length ≤ maxLength := by
  intro length inside
  cases entry with
  | single sent => rwa [List.mem_singleton.mp inside]
  | repeatPrevious count => rwa [List.eq_of_mem_replicate inside]
  | fewZeros count =>
      rw [List.eq_of_mem_replicate inside]
      exact Nat.zero_le _
  | manyZeros count =>
      rw [List.eq_of_mem_replicate inside]
      exact Nat.zero_le _

theorem expandEntriesOnto_short {entries : List LengthEntry} (valid : ∀ entry ∈ entries, entry.Valid)
    {before : Array Nat} (short : ∀ length ∈ before, length ≤ maxLength) :
    ∀ length ∈ expandEntriesOnto entries before, length ≤ maxLength := by
  induction entries generalizing before with
  | nil => exact short
  | cons entry entries ih =>
      rw [List.forall_mem_cons] at valid
      apply ih valid.2
      have previous : before.back?.getD 0 ≤ maxLength := by
        cases last : before.back? with
        | none => exact Nat.zero_le _
        | some length => exact short length (Array.mem_of_back? last)
      intro length inside
      rw [← Array.mem_toList_iff, Array.toList_appendList, List.mem_append,
        Array.mem_toList_iff] at inside
      rcases inside with early | late
      · exact short length early
      · exact valid.1.lengths_short previous length late

/-- The code lengths of a table are those of words. -/
theorem DynamicHeader.Valid.lengths_short {header : DynamicHeader} (valid : header.Valid) :
    (∀ length ∈ header.literalLengths, length ≤ maxLength) ∧
      ∀ length ∈ header.distanceLengths, length ≤ maxLength := by
  have short : ∀ length ∈ expandEntries header.entries, length ≤ maxLength := by
    intro length inside
    rw [expandEntries, Array.mem_toList_iff] at inside
    exact expandEntriesOnto_short (fun entry member => (valid.entries.1 entry member).1) (by simp)
      length inside
  exact ⟨fun length inside => short length (List.mem_of_mem_take inside),
    fun length inside => short length (List.mem_of_mem_drop inside)⟩

/-! ## Entry by entry -/

/-- What an entry makes of the code lengths that are there. -/
inductive LengthEntry.Adds : LengthEntry → (before after : List Nat) → Prop
  | single (before : List Nat) (length : Nat) : Adds (.single length) before (before ++ [length])
  | repeatPrevious (before : List Nat) (previous count : Nat) :
      Adds (.repeatPrevious count) (before ++ [previous])
        (before ++ [previous] ++ List.replicate count previous)
  | fewZeros (before : List Nat) (count : Nat) :
      Adds (.fewZeros count) before (before ++ List.replicate count 0)
  | manyZeros (before : List Nat) (count : Nat) :
      Adds (.manyZeros count) before (before ++ List.replicate count 0)

/-- What entries make of the code lengths that are there, one after another. -/
inductive Expands : (before : List Nat) → List LengthEntry → (after : List Nat) → Prop
  | nil (lengths : List Nat) : Expands lengths [] lengths
  | cons {before middle after : List Nat} {entry : LengthEntry} {entries : List LengthEntry}
      (first : entry.Adds before middle) (others : Expands middle entries after) :
      Expands before (entry :: entries) after

theorem LengthEntry.Adds.unique {entry : LengthEntry} {before after other : List Nat}
    (adds : entry.Adds before after) (also : entry.Adds before other) : after = other := by
  cases entry with
  | single length =>
      cases adds
      cases also
      rfl
  | repeatPrevious count =>
      generalize same : before = again at also
      cases adds
      cases also
      obtain ⟨rfl, last⟩ := List.append_inj' same rfl
      cases last
      rfl
  | fewZeros count =>
      cases adds
      cases also
      rfl
  | manyZeros count =>
      cases adds
      cases also
      rfl

theorem Expands.unique {before after other : List Nat} {entries : List LengthEntry}
    (expands : Expands before entries after) (also : Expands before entries other) :
    after = other := by
  induction expands with
  | nil => cases also; rfl
  | cons first others ih =>
      cases also with
      | cons otherFirst otherOthers =>
          cases first.unique otherFirst
          exact ih otherOthers

theorem LengthEntry.adds_lengths {entry : LengthEntry} {before : Array Nat}
    (copies : before = #[] → entry.symbol ≠ 16) :
    entry.Adds before.toList (before ++ entry.lengths (before.back?.getD 0)).toList := by
  rw [Array.toList_appendList]
  cases entry with
  | single length => exact .single _ length
  | repeatPrevious count =>
      obtain ⟨earlier, previous, rfl⟩ :=
        Array.exists_push_of_ne_empty fun none => copies none rfl
      rw [Array.back?_push, Array.toList_push]
      exact .repeatPrevious _ previous count
  | fewZeros count => exact .fewZeros _ count
  | manyZeros count => exact .manyZeros _ count

theorem expands_expandEntriesOnto {entries : List LengthEntry}
    (valid : ∀ entry ∈ entries, entry.Valid) {before : Array Nat}
    (first : before = #[] → ∀ entry ∈ entries.head?, entry.symbol ≠ 16) :
    Expands before.toList entries (expandEntriesOnto entries before).toList := by
  induction entries generalizing before with
  | nil => exact .nil _
  | cons entry entries ih =>
      rw [List.forall_mem_cons] at valid
      refine .cons (entry.adds_lengths fun none => first none entry rfl) (ih valid.2 fun none => ?_)
      -- Every entry adds something, so that a later copy has something to repeat.
      have size := congrArg List.length (congrArg Array.toList none)
      rw [Array.toList_appendList, List.length_append, LengthEntry.length_lengths] at size
      exact absurd size (Nat.ne_of_gt (Nat.add_pos_right _ valid.1.count_pos))

namespace DynamicHeader

/-- The code lengths of a table are those that its entries stand for, and the literal code has the
first of them, as many as were announced. -/
structure Expanded (header : DynamicHeader) : Prop where
  expands_iff : ∀ {lengths}, Expands [] header.entries lengths ↔
    lengths = header.literalLengths ++ header.distanceLengths
  literals : header.literalLengths.length = header.literalCount
  distances : header.distanceLengths.length = header.distanceCount
  short : ∀ length ∈ header.literalLengths ++ header.distanceLengths, length ≤ maxLength

theorem Valid.expanded {header : DynamicHeader} (valid : header.Valid) : header.Expanded where
  expands_iff := by
    have each : ∀ entry ∈ header.entries, entry.Valid := fun entry inside =>
      (valid.entries.1 entry inside).1
    have expands : Expands [] header.entries (expandEntries header.entries) :=
      expands_expandEntriesOnto each fun _ => valid.entries.2 rfl
    intro lengths
    rw [literalLengths, distanceLengths, List.take_append_drop]
    constructor
    · exact fun also => also.unique expands
    · rintro rfl
      exact expands
  literals := by
    rw [literalLengths, List.length_take, length_expandEntries, valid.covers]
    exact Nat.min_eq_left (Nat.le_add_right _ _)
  distances := by
    rw [distanceLengths, List.length_drop, length_expandEntries, valid.covers,
      Nat.add_sub_cancel_left]
  short length inside := by
    rcases List.mem_append.mp inside with literal | distance
    · exact valid.lengths_short.1 length literal
    · exact valid.lengths_short.2 length distance

end DynamicHeader

end DeflateAtlas.Deflate
