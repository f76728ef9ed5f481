import DeflateAtlas.Proofs.BitSource.View

/-!
# What actions read

An action on a bit source reads a spelling if it ends well exactly where the
source begins with bits that spell some value, gives this value, and takes
just these bits.  A spelling may depend on the place in the data, since
padding does, but on nothing else: not on the bits that follow, and not on
which bytes happen to be loaded.  Sequences of actions read concatenations.
-/

namespace DeflateAtlas.BitSource

variable {α β : Type}

/-- Which bits spell which value from a place in the data on. -/
abbrev Spelling (α : Type) := (position : Nat) → α → List Bool → Prop

/-- An action takes the bits that spell a value, and ends well only there. -/
structure Reads (action : Action α) (spelling : Spelling α) : Prop where
  complete : ∀ {source : BitSource} {value : α} {word : List Bool}, source.WellFormed →
    spelling source.offset value word → word <+: source.bits →
    ∃ after, action source = .ok value after ∧ Takes source after word.length
  sound : ∀ {source after : BitSource} {value : α}, source.WellFormed →
    action source = .ok value after →
    ∃ word, spelling source.offset value word ∧ word <+: source.bits ∧
      Takes source after word.length

theorem Takes.bits_eq_append {before after : BitSource} {word : List Bool}
    (takes : Takes before after word.length) (begins : word <+: before.bits) :
    before.bits = word ++ after.bits := by
  obtain ⟨rest, split⟩ := begins
  rw [takes.bits, ← split, List.drop_left]

theorem Takes.append_prefix_iff {before after : BitSource} {word more : List Bool}
    (taken : Takes before after word.length) (begins : word <+: before.bits) :
    word ++ more <+: before.bits ↔ more <+: after.bits := by
  rw [taken.bits_eq_append begins, List.prefix_append_right_inj]

theorem Takes.prefix_of_append {before after : BitSource} {word more : List Bool}
    (taken : Takes before after word.length) (begins : word ++ more <+: before.bits) :
    more <+: after.bits :=
  (taken.append_prefix_iff ((List.prefix_append word more).trans begins)).mp begins

theorem WellFormed.takes_ensure {source : BitSource} (wellFormed : source.WellFormed)
    (width : Nat) : Takes source (source.ensure width) 0 := by
  obtain ⟨formed, kept, unmoved⟩ := wellFormed.ensure width
  exact ⟨formed, data_ensure source width, kept, unmoved⟩

theorem WellFormed.takes_fill {source : BitSource} (wellFormed : source.WellFormed) :
    Takes source source.fill 0 := by
  obtain ⟨formed, kept, unmoved⟩ := wellFormed.fill
  exact ⟨formed, data_fill source, kept, unmoved⟩

theorem WellFormed.takes_discard {source : BitSource} (wellFormed : source.WellFormed)
    {width : Nat} (narrow : width < 64) (loaded : width ≤ source.count) :
    Takes source (source.discard width) width :=
  ⟨wellFormed.discard narrow loaded, rfl, bits_discard narrow loaded,
    offset_discard wellFormed loaded⟩

theorem Takes.refl {source : BitSource} (wellFormed : source.WellFormed) :
    Takes source source 0 :=
  ⟨wellFormed, rfl, rfl, rfl⟩

namespace Reads

variable {action : Action α} {spelling : Spelling α}

theorem congr {other : Spelling α} (reads : Reads action spelling)
    (same : ∀ position value word, spelling position value word ↔ other position value word) :
    Reads action other where
  complete wellFormed spelled begins :=
    reads.complete wellFormed ((same _ _ _).mpr spelled) begins
  sound wellFormed ended := by
    obtain ⟨word, spelled, begins, takes⟩ := reads.sound wellFormed ended
    exact ⟨word, (same _ _ _).mp spelled, begins, takes⟩

protected theorem pure (result : α) :
    Reads (pure result) fun _ value word => value = result ∧ word = [] where
  complete := by
    rintro source value word wellFormed ⟨rfl, rfl⟩ -
    exact ⟨source, rfl, Takes.refl wellFormed⟩
  sound := by
    rintro source after value wellFormed ⟨⟩
    exact ⟨[], ⟨rfl, rfl⟩, List.nil_prefix, Takes.refl wellFormed⟩

protected theorem throw (failure : Failure) :
    Reads (throw failure : Action α) fun _ _ _ => False where
  complete _ spelled := spelled.elim
  sound := by
    rintro source after value wellFormed ⟨⟩

/-- The second action need only read its spelling after values that the first one can give. -/
theorem bind_of_spelled {next : α → Action β} (rest : α → Spelling β)
    (first : Reads action spelling)
    (second : ∀ value, (∃ position word, spelling position value word) →
      Reads (next value) (rest value)) :
    Reads (action >>= next) fun position value word =>
      ∃ middle before after, spelling position middle before ∧
        rest middle (position + before.length) value after ∧ word = before ++ after where
  complete := by
    rintro source value word wellFormed ⟨middle, before, after, spelled, others, rfl⟩ begins
    obtain ⟨reached, run, taken⟩ :=
      first.complete wellFormed spelled ((List.prefix_append _ _).trans begins)
    rw [← taken.offset] at others
    replace begins := taken.prefix_of_append begins
    obtain ⟨last, ended, moreTaken⟩ :=
      (second middle ⟨_, _, spelled⟩).complete taken.wellFormed others begins
    refine ⟨last, bind_eq_ok_iff.mpr ⟨middle, reached, run, ended⟩, ?_⟩
    rw [List.length_append]
    exact taken.trans moreTaken
  sound := by
    intro source after value wellFormed ended
    obtain ⟨middle, reached, run, finished⟩ := bind_eq_ok_iff.mp ended
    obtain ⟨before, spelled, begins, taken⟩ := first.sound wellFormed run
    obtain ⟨behind, others, continues, moreTaken⟩ :=
      (second middle ⟨_, _, spelled⟩).sound taken.wellFormed finished
    rw [taken.offset] at others
    refine ⟨before ++ behind, ⟨middle, before, behind, spelled, others, rfl⟩,
      (taken.append_prefix_iff begins).mpr continues, ?_⟩
    rw [List.length_append]
    exact taken.trans moreTaken

protected theorem bind {next : α → Action β} {rest : α → Spelling β}
    (first : Reads action spelling) (second : ∀ value, Reads (next value) (rest value)) :
    Reads (action >>= next) fun position value word =>
      ∃ middle before after, spelling position middle before ∧
        rest middle (position + before.length) value after ∧ word = before ++ after :=
  first.bind_of_spelled rest fun value _ => second value

protected theorem map (f : α → β) (reads : Reads action spelling) :
    Reads (f <$> action) fun position value word =>
      ∃ middle, spelling position middle word ∧ f middle = value where
  complete := by
    rintro source value word wellFormed ⟨middle, spelled, rfl⟩ begins
    obtain ⟨after, run, taken⟩ := reads.complete wellFormed spelled begins
    exact ⟨after, map_eq_ok_iff.mpr ⟨middle, run, rfl⟩, taken⟩
  sound := by
    intro source after value wellFormed ended
    obtain ⟨middle, run, rfl⟩ := map_eq_ok_iff.mp ended
    obtain ⟨word, spelled, begins, taken⟩ := reads.sound wellFormed run
    exact ⟨word, ⟨middle, spelled, rfl⟩, begins, taken⟩

protected theorem ite {condition : Prop} [Decidable condition] {yes no : Action α}
    {whenTrue whenFalse : Spelling α} (yesReads : Reads yes whenTrue)
    (noReads : Reads no whenFalse) :
    Reads (if condition then yes else no) fun position value word =>
      if condition then whenTrue position value word else whenFalse position value word := by
  by_cases holds : condition
  · simpa only [holds, if_true] using yesReads
  · simpa only [holds, if_false] using noReads

end Reads

/-! ## Numbers -/

/-- A number in `width` bits, the lowest digit first. -/
def numberSpelling (width : Nat) : Spelling Nat := fun _ number word =>
  number < 2 ^ width ∧ word = lowBits width number

theorem numberSpelling_take {bits : List Bool} {width : Nat} (available : width ≤ bits.length)
    (position : Nat) :
    numberSpelling width position (bitsValue (bits.take width)) (bits.take width) := by
  have small := bitsValue_lt (bits.take width)
  have spelled := lowBits_bitsValue (bits.take width)
  rw [List.length_take, Nat.min_eq_left available] at small spelled
  exact ⟨small, spelled.symm⟩

theorem bitsValue_take {bits : List Bool} {width number : Nat} (small : number < 2 ^ width)
    (begins : lowBits width number <+: bits) : bitsValue (bits.take width) = number := by
  have whole := List.prefix_iff_eq_take.mp begins
  rw [length_lowBits] at whole
  rw [← whole, bitsValue_lowBits, Nat.mod_eq_of_lt small]

theorem length_take_bits {source : BitSource} {width : Nat}
    (available : width ≤ source.bits.length) : (source.bits.take width).length = width := by
  rw [List.length_take, Nat.min_eq_left available]

theorem reads_getBits {width : Nat} (narrow : width ≤ 32) :
    Reads (getBits width) (numberSpelling width) where
  complete := by
    rintro source number word wellFormed ⟨small, rfl⟩ begins
    have available : width ≤ source.bits.length := by simpa using begins.length_le
    obtain ⟨after, run, taken⟩ := getBits_of_le wellFormed narrow available
    rw [bitsValue_take small begins] at run
    exact ⟨after, run, by rwa [length_lowBits]⟩
  sound := by
    intro source after value wellFormed ended
    rcases Nat.lt_or_ge source.bits.length width with short | available
    · obtain ⟨stopped, run, _⟩ := getBits_of_lt wellFormed narrow short
      rw [run] at ended
      cases ended
    · obtain ⟨reached, run, taken⟩ := getBits_of_le wellFormed narrow available
      rw [run] at ended
      cases ended
      exact ⟨source.bits.take width, numberSpelling_take available _, List.take_prefix _ _,
        by rwa [length_take_bits available]⟩

theorem reads_getBit : Reads getBit fun _ bit word => word = [bit] := by
  apply ((reads_getBits (by decide)).map _).congr
  intro position bit word
  constructor
  · rintro ⟨number, ⟨small, rfl⟩, rfl⟩
    have cases : number = 0 ∨ number = 1 := by omega
    rcases cases with rfl | rfl <;> rfl
  · rintro rfl
    refine ⟨bit.toNat, ⟨?_, ?_⟩, ?_⟩ <;> cases bit <;> decide

/-- The number of bits from a place in the data to the next byte boundary. -/
def paddingWidth (position : Nat) : Nat :=
  (8 - position % 8) % 8

theorem paddingWidth_lt (position : Nat) : paddingWidth position < 8 :=
  Nat.mod_lt _ (by decide)

theorem paddingWidth_congr {first second : Nat} (aligned : first % 8 = second % 8) :
    paddingWidth first = paddingWidth second := by
  rw [paddingWidth, paddingWidth, aligned]

/-- The padding from a place on, a number as any other. -/
def paddingSpelling : Spelling UInt8 := fun position padding word =>
  padding.toNat < 2 ^ paddingWidth position ∧
    word = lowBits (paddingWidth position) padding.toNat

theorem WellFormed.length_bits_mod {source : BitSource} (wellFormed : source.WellFormed) :
    source.bits.length % 8 = paddingWidth source.offset := by
  have whole := wellFormed.offset_add_remaining
  rw [length_bits, paddingWidth]
  omega

theorem toNat_toUInt8 {width number : Nat} (small : number < 2 ^ width)
    (narrow : width ≤ 8) : number.toUInt8.toNat = number := by
  have byte : 2 ^ width ≤ 2 ^ 8 := Nat.pow_le_pow_right (by decide) narrow
  rw [Nat.toUInt8, UInt8.toNat_ofNat', Nat.mod_eq_of_lt (Nat.lt_of_lt_of_le small byte)]

theorem exists_paddingSpelling {position : Nat} {word : List Bool}
    (fills : word.length = paddingWidth position) :
    ∃ padding, paddingSpelling position padding word := by
  have small := bitsValue_lt word
  rw [fills] at small
  have value := toNat_toUInt8 small (Nat.le_of_lt (paddingWidth_lt _))
  refine ⟨(bitsValue word).toUInt8, by rwa [value], ?_⟩
  rw [value, ← fills, lowBits_bitsValue]

theorem reads_getPadding : Reads getPadding paddingSpelling where
  complete := by
    rintro source padding word wellFormed ⟨small, rfl⟩ begins
    obtain ⟨after, run, taken⟩ := getPadding_eq wellFormed
    rw [wellFormed.length_bits_mod, bitsValue_take small begins] at run
    rw [wellFormed.length_bits_mod] at taken
    refine ⟨after, ?_, by rwa [length_lowBits]⟩
    simpa [Nat.toUInt8] using run
  sound := by
    intro source after padding wellFormed ended
    obtain ⟨reached, run, taken⟩ := getPadding_eq wellFormed
    rw [wellFormed.length_bits_mod] at run taken
    rw [run] at ended
    cases ended
    have available : paddingWidth source.offset ≤ source.bits.length := by
      rw [← wellFormed.length_bits_mod]
      exact Nat.mod_le _ _
    obtain ⟨small, spelled⟩ := numberSpelling_take available source.offset
    have value := toNat_toUInt8 small (Nat.le_of_lt (paddingWidth_lt _))
    refine ⟨source.bits.take (paddingWidth source.offset), ⟨?_, ?_⟩, List.take_prefix _ _, ?_⟩
    · rwa [value]
    · rwa [value]
    · rwa [length_take_bits available]

/-! ## Bytes -/

theorem reads_getByte : Reads getByte fun _ byte word => word = lowBits 8 byte.toNat where
  complete := by
    rintro source byte word wellFormed rfl begins
    have available : 8 ≤ source.bits.length := by simpa using begins.length_le
    obtain ⟨after, run, taken⟩ := getByte_of_le wellFormed available
    rw [bitsValue_take byte.toNat_lt begins] at run
    refine ⟨after, ?_, by rwa [length_lowBits]⟩
    simpa [Nat.toUInt8] using run
  sound := by
    intro source after byte wellFormed ended
    rcases Nat.lt_or_ge source.bits.length 8 with short | available
    · obtain ⟨stopped, run, _⟩ := getByte_of_lt wellFormed short
      rw [run] at ended
      cases ended
    · obtain ⟨reached, run, taken⟩ := getByte_of_le wellFormed available
      rw [run] at ended
      cases ended
      obtain ⟨small, spelled⟩ := numberSpelling_take available source.offset
      refine ⟨source.bits.take 8, ?_, List.take_prefix _ _, ?_⟩
      · rwa [toNat_toUInt8 small (Nat.le_refl 8)]
      · rwa [length_take_bits available]

theorem reads_getBytesOnto (length : Nat) (before : Bytes) :
    Reads (getBytesOnto length before) fun _ bytes word =>
      ∃ more : List UInt8, more.length = length ∧ bytes = before ++ more.toArray ∧
        word = bitsOfBytes more := by
  induction length generalizing before with
  | zero =>
      apply (Reads.pure before).congr
      intro position bytes word
      constructor
      · rintro ⟨rfl, rfl⟩
        exact ⟨[], rfl, by simp, rfl⟩
      · rintro ⟨more, none, rfl, rfl⟩
        obtain rfl := List.eq_nil_of_length_eq_zero none
        simp
  | succ length ih =>
      apply (reads_getByte.bind fun byte => ih (before.push byte)).congr
      intro position bytes word
      constructor
      · rintro ⟨byte, _, _, rfl, ⟨more, rfl, rfl, rfl⟩, rfl⟩
        exact ⟨byte :: more, rfl, by simp, rfl⟩
      · rintro ⟨more, size, rfl, rfl⟩
        obtain ⟨byte, more, rfl⟩ := List.exists_cons_of_length_eq_add_one size
        exact ⟨byte, _, _, rfl, ⟨more, by simpa using size, by simp, rfl⟩, rfl⟩

theorem reads_getBytes (length : Nat) :
    Reads (getBytes length) fun _ bytes word =>
      bytes.size = length ∧ word = bitsOfBytes bytes.toList := by
  apply (reads_getBytesOnto length _).congr
  intro position bytes word
  constructor
  · rintro ⟨more, rfl, rfl, rfl⟩
    simp
  · rintro ⟨rfl, rfl⟩
    exact ⟨bytes.toList, by simp, by simp, rfl⟩

end DeflateAtlas.BitSource
