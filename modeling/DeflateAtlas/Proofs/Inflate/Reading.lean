import DeflateAtlas.Inflate.BitCursor
import DeflateAtlas.Proofs.BitSource.Reading

/-!
# What the inflater's actions read

An action on a cursor decodes a spelling from a place on if it ends well exactly
where the bits after the cursor begin with a word that spells some value, gives
this value and moves past the word.  The place matters for padding and for the
bytes of stored blocks, which are taken at byte boundaries only, so it is fixed
and the second of two actions is judged at the place where the first one ends.
-/

namespace DeflateAtlas.Inflate

open BitSource (Spelling numberSpelling paddingSpelling exists_paddingSpelling paddingWidth)

namespace BitCursor

/-- The bits after the cursor. -/
def rest (cursor : BitCursor) : List Bool :=
  (bitsOfBytes cursor.data.toList).drop cursor.offset

/-- The cursor a number of bits further on. -/
def advance (cursor : BitCursor) (number : Nat) : BitCursor :=
  { cursor with offset := cursor.offset + number }

/-- The cursor stands in its data or at the end of it. -/
def Inside (cursor : BitCursor) : Prop :=
  cursor.offset ≤ cursor.data.size * 8

@[simp]
theorem offset_advance (cursor : BitCursor) (number : Nat) :
    (cursor.advance number).offset = cursor.offset + number :=
  rfl

theorem advance_advance (cursor : BitCursor) (first second : Nat) :
    (cursor.advance first).advance second = cursor.advance (first + second) := by
  simp only [advance, Nat.add_assoc]

theorem rest_advance (cursor : BitCursor) (number : Nat) :
    (cursor.advance number).rest = cursor.rest.drop number := by
  simp only [rest, advance, List.drop_drop]

theorem length_rest (cursor : BitCursor) : cursor.rest.length = cursor.remaining := by
  rw [rest, List.length_drop, length_bitsOfBytes, Array.length_toList, remaining]

theorem Inside.advance {cursor : BitCursor} (inside : cursor.Inside) {word : List Bool}
    (begins : word <+: cursor.rest) : (cursor.advance word.length).Inside := by
  have short := begins.length_le
  rw [length_rest, remaining] at short
  have before : cursor.offset ≤ cursor.data.size * 8 := inside
  rw [Inside, offset_advance]
  change _ ≤ cursor.data.size * 8
  omega

end BitCursor

open BitCursor

theorem append_prefix_iff {first second bits : List Bool} :
    first ++ second <+: bits ↔ first <+: bits ∧ second <+: bits.drop first.length := by
  constructor
  · rintro ⟨behind, rfl⟩
    rw [List.append_assoc, List.drop_left]
    exact ⟨List.prefix_append _ _, List.prefix_append _ _⟩
  · rintro ⟨⟨behind, rfl⟩, begins⟩
    rw [List.drop_left] at begins
    exact (List.prefix_append_right_inj first).mpr begins

theorem append_prefix_take_iff {first second bits : List Bool} {number : Nat} :
    first ++ second <+: bits.take (first.length + number) ↔
      first <+: bits ∧ second <+: (bits.drop first.length).take number := by
  rw [List.prefix_take_iff, append_prefix_iff, List.length_append, List.prefix_take_iff,
    Nat.add_le_add_iff_left, and_assoc]

variable {α β : Type}

/-- An action at a place in the data takes the bits that spell a value, and ends well only there. -/
def Decodes (position : Nat) (action : Action α) (spelling : Spelling α) : Prop :=
  ∀ (cursor after : BitCursor) (value : α), cursor.offset = position → cursor.Inside →
    (action cursor = .ok value after ↔
      ∃ word, spelling position value word ∧ word <+: cursor.rest ∧
        after = cursor.advance word.length)

namespace Decodes

variable {position : Nat} {action : Action α} {spelling : Spelling α}

theorem congr {other : Spelling α} (decodes : Decodes position action spelling)
    (same : ∀ value word, spelling position value word ↔ other position value word) :
    Decodes position action other := by
  intro cursor after value place inside
  simp only [decodes cursor after value place inside, same]

protected theorem pure (result : α) :
    Decodes position (pure result) fun _ value word => value = result ∧ word = [] := by
  intro cursor after value place inside
  constructor
  · rintro ⟨⟩
    exact ⟨[], ⟨rfl, rfl⟩, List.nil_prefix, rfl⟩
  · rintro ⟨word, ⟨rfl, rfl⟩, -, rfl⟩
    rfl

protected theorem throw (defect : Defect) :
    Decodes position (throw defect : Action α) fun _ _ _ => False := by
  intro cursor after value place inside
  constructor
  · rintro ⟨⟩
  · rintro ⟨word, spelled, -⟩
    exact spelled.elim

protected theorem bind {next : α → Action β} {rest : α → Spelling β}
    (first : Decodes position action spelling)
    (second : ∀ middle before, spelling position middle before →
      Decodes (position + before.length) (next middle) (rest middle)) :
    Decodes position (action >>= next) fun position value word =>
      ∃ middle before after, spelling position middle before ∧
        rest middle (position + before.length) value after ∧ word = before ++ after := by
  intro cursor after value place inside
  rw [bind_eq_ok_iff]
  constructor
  · rintro ⟨middle, reached, run, ended⟩
    obtain ⟨before, spelled, begins, rfl⟩ := (first _ _ _ place inside).mp run
    have offset : (cursor.advance before.length).offset = position + before.length := by
      rw [offset_advance, place]
    obtain ⟨behind, others, continues, rfl⟩ :=
      (second middle before spelled _ _ _ offset (inside.advance begins)).mp ended
    rw [rest_advance] at continues
    refine ⟨before ++ behind, ⟨middle, before, behind, spelled, others, rfl⟩,
      append_prefix_iff.mpr ⟨begins, continues⟩, ?_⟩
    rw [advance_advance, List.length_append]
  · rintro ⟨word, ⟨middle, before, behind, spelled, others, rfl⟩, begins, rfl⟩
    obtain ⟨begins, continues⟩ := append_prefix_iff.mp begins
    have offset : (cursor.advance before.length).offset = position + before.length := by
      rw [offset_advance, place]
    refine ⟨middle, _, (first _ _ _ place inside).mpr ⟨before, spelled, begins, rfl⟩, ?_⟩
    refine (second middle before spelled _ _ _ offset (inside.advance begins)).mpr
      ⟨behind, others, ?_, ?_⟩
    · rwa [rest_advance]
    · rw [advance_advance, List.length_append]

protected theorem map (f : α → β) (decodes : Decodes position action spelling) :
    Decodes position (f <$> action) fun position value word =>
      ∃ middle, spelling position middle word ∧ f middle = value := by
  intro cursor after value place inside
  rw [map_eq_ok_iff]
  constructor
  · rintro ⟨middle, run, rfl⟩
    obtain ⟨word, spelled, begins, rfl⟩ := (decodes _ _ _ place inside).mp run
    exact ⟨word, ⟨middle, spelled, rfl⟩, begins, rfl⟩
  · rintro ⟨word, ⟨middle, spelled, rfl⟩, begins, rfl⟩
    exact ⟨middle, (decodes _ _ _ place inside).mpr ⟨word, spelled, begins, rfl⟩, rfl⟩

protected theorem ite {condition : Prop} [Decidable condition] {yes no : Action α}
    {whenTrue whenFalse : Spelling α} (yesDecodes : Decodes position yes whenTrue)
    (noDecodes : Decodes position no whenFalse) :
    Decodes position (if condition then yes else no) fun position value word =>
      if condition then whenTrue position value word else whenFalse position value word := by
  by_cases holds : condition
  · simpa only [holds, if_true] using yesDecodes
  · simpa only [holds, if_false] using noDecodes

end Decodes

/-- An action that ends well has moved on in the data. -/
def Advances (action : Action α) : Prop :=
  ∀ ⦃cursor after : BitCursor⦄ ⦃value : α⦄, cursor.Inside → action cursor = .ok value after →
    ∃ number, after = cursor.advance number ∧ after.Inside

theorem Decodes.advances {action : Action α} {spelling : Spelling α}
    (decodes : ∀ position, Decodes position action spelling) : Advances action := by
  intro cursor after value inside ended
  obtain ⟨word, -, begins, rfl⟩ := (decodes _ cursor after value rfl inside).mp ended
  exact ⟨word.length, rfl, inside.advance begins⟩

namespace Advances

protected theorem pure (value : α) : Advances (pure value : Action α) := by
  rintro cursor after _ inside ⟨⟩
  exact ⟨0, rfl, inside⟩

protected theorem bind {action : Action α} {next : α → Action β} (first : Advances action)
    (rest : ∀ value, Advances (next value)) : Advances (action >>= next) := by
  intro cursor after value inside ended
  obtain ⟨middle, reached, run, continued⟩ := bind_eq_ok_iff.mp ended
  obtain ⟨early, rfl, reachedInside⟩ := first inside run
  obtain ⟨late, rfl, afterInside⟩ := rest middle reachedInside continued
  exact ⟨early + late, advance_advance _ _ _, afterInside⟩

protected theorem ite {condition : Prop} [Decidable condition] {yes no : Action α}
    (whenTrue : Advances yes) (whenFalse : Advances no) :
    Advances (if condition then yes else no) := by
  split
  · exact whenTrue
  · exact whenFalse

end Advances

/-! ## Bits and bytes -/

theorem singleton_prefix_iff {bit : Bool} {bits : List Bool} :
    [bit] <+: bits ↔ bits.head? = some bit := by
  cases bits with
  | nil => simp
  | cons first bits => simp [eq_comm]

theorem head?_rest (cursor : BitCursor) :
    cursor.rest.head? = cursor.data[cursor.offset / 8]?.map
      fun byte => byte.toNat.testBit (cursor.offset % 8) := by
  rw [rest, List.head?_drop, getElem?_bitsOfBytes, Array.getElem?_toList]

theorem decodes_bit (position : Nat) : Decodes position bit fun _ bit word => word = [bit] := by
  intro cursor after value place inside
  have next := head?_rest cursor
  simp only [bit]
  by_cases more : cursor.offset / 8 < cursor.data.size
  · rw [Array.getElem?_eq_getElem more, Option.map_some] at next
    rw [dif_pos more]
    constructor
    · rintro ⟨⟩
      exact ⟨_, rfl, singleton_prefix_iff.mpr next, rfl⟩
    · rintro ⟨word, rfl, begins, rfl⟩
      have first := singleton_prefix_iff.mp begins
      rw [next, Option.some.injEq] at first
      rw [first]
      rfl
  · rw [Array.getElem?_eq_none (Nat.le_of_not_lt more), Option.map_none] at next
    rw [dif_neg more]
    constructor
    · rintro ⟨⟩
    · rintro ⟨word, rfl, begins, rfl⟩
      have first := singleton_prefix_iff.mp begins
      rw [next] at first
      cases first

theorem decodes_bits (position width : Nat) :
    Decodes position (bits width) (numberSpelling width) := by
  induction width generalizing position with
  | zero =>
      apply (Decodes.pure 0).congr
      intro number word
      simp [numberSpelling, lowBits]
  | succ width ih =>
      apply ((decodes_bit position).bind fun low _ _ => (ih _).bind fun high _ _ =>
        Decodes.pure (low.toNat + 2 * high)).congr
      intro number word
      constructor
      · rintro ⟨low, _, _, rfl, ⟨high, _, _, ⟨small, rfl⟩, ⟨rfl, rfl⟩, rfl⟩, rfl⟩
        have bit := low.toNat_le
        have half : (low.toNat + 2 * high) / 2 = high := by omega
        have odd : (low.toNat + 2 * high).testBit 0 = low := by
          cases low <;> simp
        refine ⟨by rw [Nat.pow_succ]; omega, ?_⟩
        rw [lowBits, half, odd, List.append_nil]
        rfl
      · rintro ⟨small, rfl⟩
        rw [Nat.pow_succ] at small
        have digits : (number.testBit 0).toNat + 2 * (number / 2) = number := by
          rw [Nat.testBit_zero]
          rcases Nat.mod_two_eq_zero_or_one number with even | odd
          · simp only [even, Nat.zero_ne_one, decide_false, Bool.toNat_false]
            omega
          · simp only [odd, decide_true, Bool.toNat_true]
            omega
        exact ⟨number.testBit 0, _, _, rfl, ⟨number / 2, _, _, ⟨by omega, rfl⟩,
          ⟨digits.symm, rfl⟩, rfl⟩, by rw [List.append_nil]; rfl⟩

theorem bytesTouched_mul_eight (cursor : BitCursor) :
    cursor.bytesTouched * 8 = cursor.offset + paddingWidth cursor.offset := by
  rw [bytesTouched, bytesForBits, paddingWidth]
  omega

theorem decodes_align (position : Nat) :
    Decodes position align fun position _ word =>
      ∃ padding, paddingSpelling position padding word := by
  intro cursor after value place inside
  have available : paddingWidth cursor.offset ≤ cursor.rest.length := by
    rw [length_rest, remaining, paddingWidth]
    rw [Inside] at inside
    omega
  rw [align, bytesTouched_mul_eight, ← place]
  constructor
  · rintro ⟨⟩
    have length : (cursor.rest.take (paddingWidth cursor.offset)).length =
        paddingWidth cursor.offset := by
      rw [List.length_take, Nat.min_eq_left available]
    exact ⟨_, exists_paddingSpelling length, List.take_prefix _ _, by rw [length]; rfl⟩
  · rintro ⟨word, ⟨padding, -, rfl⟩, -, rfl⟩
    rw [length_lowBits]
    rfl

theorem decodes_bytes {position : Nat} (aligned : position % 8 = 0) (length : Nat) :
    Decodes position (bytes length) fun _ bytes word =>
      bytes.size = length ∧ word = bitsOfBytes bytes.toList := by
  intro cursor after value place inside
  have start : cursor.offset / 8 * 8 = cursor.offset := by omega
  have slice := bitsOfBytes_slice cursor.data (cursor.offset / 8) length
  rw [start] at slice
  simp only [bytes]
  by_cases within : cursor.offset / 8 + length ≤ cursor.data.size
  · rw [if_pos within]
    have size := Bytes.size_slice within
    constructor
    · rintro ⟨⟩
      refine ⟨_, ⟨size, rfl⟩, ?_, ?_⟩
      · rw [slice]
        exact List.take_prefix _ _
      · rw [length_bitsOfBytes, Array.length_toList, size]
        rfl
    · rintro ⟨word, ⟨rfl, rfl⟩, begins, rfl⟩
      have taken := List.prefix_iff_eq_take.mp begins
      rw [length_bitsOfBytes, Array.length_toList, rest, ← slice] at taken
      have same := Array.toList_inj.mp (bitsOfBytes_injective taken)
      rw [length_bitsOfBytes, Array.length_toList, ← same]
      rfl
  · rw [if_neg within]
    constructor
    · rintro ⟨⟩
    · rintro ⟨word, ⟨rfl, rfl⟩, begins, rfl⟩
      have short := begins.length_le
      rw [length_rest, length_bitsOfBytes, Array.length_toList, remaining] at short
      rw [Inside] at inside
      omega

end DeflateAtlas.Inflate
