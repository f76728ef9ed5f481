import DeflateAtlas.Container.Gzip
import DeflateAtlas.Proofs.Bytes
import Mathlib.Data.List.Forall2

/-!
# The headers of members

The header of a member is written down here as a grammar over bytes (RFC 1952): ten
fixed bytes, and those of four fields that the flags select.  Skipping a header is
exact: it ends at a place just if a header stands before that place.  So no header
begins with another one, and where the data ends inside of a header none is skipped.
-/

namespace DeflateAtlas.Gzip

/-! ## The grammar -/

/-- A field that begins with its length in two bytes. -/
def ExtraField (bytes : List UInt8) : Prop :=
  ∃ content : List UInt8, content.length < 256 ^ 2 ∧
    bytes = toLittleEndian 2 content.length ++ content

/-- A text that a zero byte ends. -/
def TextField (bytes : List UInt8) : Prop :=
  ∃ text : List UInt8, 0 ∉ text ∧ bytes = text ++ [0]

/-- The checksum of a header, which is not checked. -/
def CheckField (bytes : List UInt8) : Prop :=
  bytes.length = 2

/-- The optional fields in their order: the flag bit that selects a field, and what it looks like.
They are extra data, the file name, a comment, and the checksum. -/
def fieldForms : List (Nat × (List UInt8 → Prop)) :=
  [(2, ExtraField), (3, TextField), (4, TextField), (1, CheckField)]

/-- Those of some fields that the flags select, one after the other. -/
def SelectedFields (flags : Nat) : List (Nat × (List UInt8 → Prop)) → List UInt8 → Prop
  | [], bytes => bytes = []
  | (flag, Form) :: forms, bytes =>
      ∃ field others, bytes = field ++ others ∧
        (if flags.testBit flag then Form field else field = []) ∧
          SelectedFields flags forms others

/-- A header: the magic bytes, the method, the flags, six more bytes, and the optional fields. -/
def IsHeader (bytes : List UInt8) : Prop :=
  ∃ (flags : UInt8) (fixed fields : List UInt8), fixed.length = 6 ∧
    SelectedFields flags.toNat fieldForms fields ∧
      bytes = [0x1f, 0x8b, 8, flags] ++ fixed ++ fields

/-- Any six bytes and any name can stand in a header. -/
theorem isHeader_named {fixed name : List UInt8} (length : fixed.length = 6)
    (nonzero : 0 ∉ name) : IsHeader ([0x1f, 0x8b, 8, 8] ++ fixed ++ (name ++ [0])) := by
  refine ⟨8, fixed, name ++ [0], length, ?_, rfl⟩
  refine ⟨[], name ++ [0], rfl, rfl, name ++ [0], [], ?_, ⟨name, nonzero, rfl⟩, ?_⟩
  · rw [List.append_nil]
  · exact ⟨[], [], rfl, rfl, [], [], rfl, rfl, rfl⟩

/-! ## Skipping fields -/

/-- A way past a field that ends just behind the bytes of a certain form. -/
def Skips (skip : Bytes → Nat → Option Nat) (Form : List UInt8 → Prop) : Prop :=
  ∀ ⦃data : Bytes⦄ ⦃place : Nat⦄, place ≤ data.size → ∀ stop,
    skip data place = some stop ↔
      ∃ bytes, Form bytes ∧ bytes <+: data.rest place ∧ stop = place + bytes.length

theorem skips_bytes (length : Nat) : Skips (skipBytes length) (·.length = length) := by
  intro data place inside stop
  rw [skipBytes]
  split
  · rename_i room
    have taken : ((data.rest place).take length).length = length := by
      rw [List.length_take, Bytes.length_rest]
      omega
    constructor
    · rintro ⟨⟩
      exact ⟨_, taken, List.take_prefix _ _, by rw [taken]⟩
    · rintro ⟨bytes, rfl, -, rfl⟩
      rfl
  · rename_i noRoom
    refine iff_of_false (by rintro ⟨⟩) ?_
    rintro ⟨bytes, rfl, stands, -⟩
    exact noRoom (Bytes.stop_le_of_prefix inside stands)

theorem skips_extra : Skips skipExtra ExtraField := by
  intro data place inside stop
  rw [skipExtra, Option.bind_eq_bind, Option.bind_eq_some_iff]
  constructor
  · rintro ⟨start, first, second⟩
    obtain ⟨size, two, stands, rfl⟩ := (skips_bytes 2 inside start).mp first
    have room := Bytes.stop_le_of_prefix inside stands
    obtain ⟨content, length, follows, rfl⟩ := (skips_bytes _ room stop).mp second
    have value : data.field place 2 = littleEndian size := by
      have read := (Bytes.field_eq_iff room).mpr stands
      rwa [two] at read
    have small := littleEndian_lt size
    have written := toLittleEndian_littleEndian size
    rw [two, ← value, ← length] at small written
    refine ⟨size ++ content, ⟨content, small, by rw [written]⟩,
      Bytes.append_prefix_rest_iff.mpr ⟨stands, follows⟩, ?_⟩
    rw [List.length_append, Nat.add_assoc]
  · rintro ⟨bytes, ⟨content, small, rfl⟩, stands, rfl⟩
    have stop := Bytes.stop_le_of_prefix inside stands
    obtain ⟨behind, stands⟩ := stands
    rw [List.append_assoc] at stands
    obtain ⟨value, follows⟩ := Bytes.field_of_append small stands.symm
    rw [List.length_append, length_toLittleEndian] at stop ⊢
    refine ⟨place + 2, ?_, ?_⟩
    · rw [skipBytes, if_pos (by omega)]
    · rw [value, skipBytes, if_pos (by omega), Nat.add_assoc]

theorem skips_text : Skips skipText TextField := by
  intro data place inside stop
  fun_induction skipText data place with
  | case1 place within zero =>
      rw [Bytes.rest_of_lt within, zero, Option.some.injEq]
      constructor
      · rintro rfl
        exact ⟨[0], ⟨[], List.not_mem_nil, rfl⟩,
          List.cons_prefix_cons.mpr ⟨rfl, List.nil_prefix⟩, rfl⟩
      · rintro ⟨bytes, ⟨text, nonzero, rfl⟩, stands, rfl⟩
        cases text with
        | nil => rfl
        | cons byte text =>
            obtain rfl := (List.cons_prefix_cons.mp stands).1
            exact absurd (List.mem_cons_self ..) nonzero
  | case2 place within nonzero ih =>
      rw [Bytes.rest_of_lt within, ih within]
      constructor
      · rintro ⟨bytes, ⟨text, others, rfl⟩, stands, rfl⟩
        refine ⟨data[place] :: (text ++ [0]), ⟨data[place] :: text, ?_, rfl⟩,
          List.cons_prefix_cons.mpr ⟨rfl, stands⟩, ?_⟩
        · rw [List.mem_cons, not_or]
          exact ⟨Ne.symm nonzero, others⟩
        · rw [List.length_cons]
          omega
      · rintro ⟨bytes, ⟨text, others, rfl⟩, stands, rfl⟩
        cases text with
        | nil =>
            have first := (List.cons_prefix_cons.mp stands).1
            exact absurd first.symm nonzero
        | cons byte text =>
            refine ⟨text ++ [0], ⟨text, fun zero => others (List.mem_cons_of_mem _ zero), rfl⟩,
              (List.cons_prefix_cons.mp stands).2, ?_⟩
            rw [List.cons_append, List.length_cons]
            omega
  | case3 place outside =>
      refine iff_of_false (by rintro ⟨⟩) ?_
      rintro ⟨bytes, ⟨text, -, rfl⟩, stands, -⟩
      have short := Bytes.stop_le_of_prefix inside stands
      rw [List.length_append, List.length_singleton] at short
      omega

theorem skips_nothing : Skips (fun _ place => some place) (· = []) := by
  intro data place inside stop
  rw [Option.some.injEq]
  constructor
  · rintro rfl
    exact ⟨[], rfl, List.nil_prefix, rfl⟩
  · rintro ⟨bytes, rfl, -, rfl⟩
    rfl

/-- Skipping a field and then others is skipping what the one is before the others. -/
theorem Skips.bind {skip next : Bytes → Nat → Option Nat} {Form Next : List UInt8 → Prop}
    (first : Skips skip Form) (second : Skips next Next) :
    Skips (fun data place => (skip data place).bind (next data))
      (fun bytes => ∃ field others, bytes = field ++ others ∧ Form field ∧ Next others) := by
  intro data place inside stop
  rw [Option.bind_eq_some_iff]
  constructor
  · rintro ⟨middle, skipped, followed⟩
    obtain ⟨field, form, stands, rfl⟩ := (first inside middle).mp skipped
    have within := Bytes.stop_le_of_prefix inside stands
    obtain ⟨others, forms, follows, rfl⟩ := (second within stop).mp followed
    refine ⟨field ++ others, ⟨field, others, rfl, form, forms⟩,
      Bytes.append_prefix_rest_iff.mpr ⟨stands, follows⟩, ?_⟩
    rw [List.length_append, Nat.add_assoc]
  · rintro ⟨bytes, ⟨field, others, rfl, form, forms⟩, stands, rfl⟩
    obtain ⟨begins, follows⟩ := Bytes.append_prefix_rest_iff.mp stands
    have within := Bytes.stop_le_of_prefix inside begins
    refine ⟨place + field.length, (first inside _).mpr ⟨field, form, begins, rfl⟩, ?_⟩
    refine (second within _).mpr ⟨others, forms, follows, ?_⟩
    rw [List.length_append, Nat.add_assoc]

theorem skips_fields (flags : Nat) {fields : List (Nat × (Bytes → Nat → Option Nat))}
    {forms : List (Nat × (List UInt8 → Prop))}
    (each : List.Forall₂ (fun field form => field.1 = form.1 ∧ Skips field.2 form.2)
      fields forms) :
    Skips (fun data => skipFields flags data fields) (SelectedFields flags forms) := by
  induction each with
  | nil => exact skips_nothing
  | @cons field form fields forms same others ih =>
      obtain ⟨flag, skip⟩ := field
      obtain ⟨_, Form⟩ := form
      obtain ⟨rfl, skips⟩ := same
      have first : Skips
          (fun data place => if flags.testBit flag then skip data place else some place)
          (fun bytes => if flags.testBit flag then Form bytes else bytes = []) := by
        cases flags.testBit flag with
        | true => exact skips
        | false => exact skips_nothing
      exact first.bind ih

theorem skips_optionalFields (flags : Nat) :
    Skips (fun data => skipFields flags data optionalFields) (SelectedFields flags fieldForms) :=
  skips_fields flags
    (.cons ⟨rfl, skips_extra⟩ (.cons ⟨rfl, skips_text⟩ (.cons ⟨rfl, skips_text⟩
      (.cons ⟨rfl, skips_bytes 2⟩ .nil))))

/-! ## Skipping headers -/

theorem kind_of_headerStop {data : Bytes} {place : Nat} {failure : Failure}
    (refused : headerStop data place = .error failure) : failure.kind = .invalidGzipHeader := by
  rw [headerStop] at refused
  split at refused
  · cases refused
    rfl
  · split at refused
    · cases refused
      rfl
    · split at refused
      · cases refused
        rfl
      · split at refused
        · cases refused
        · cases refused
          rfl

/-- The bytes that are the same in all headers, and the flags after them. -/
theorem fixedBytes_iff {data : Bytes} {place : Nat} (room : place + fixedHeaderSize ≤ data.size)
    (flags : UInt8) :
    [0x1f, 0x8b, 8, flags] <+: data.rest place ↔
      data.field place 2 = magic ∧ data.field (place + 2) 1 = deflateMethod ∧
        data.field (place + 3) 1 = flags.toNat := by
  rw [fixedHeaderSize] at room
  have toMethod : place + 2 ≤ data.size := by omega
  have toFlags : place + 2 + 1 ≤ data.size := by omega
  have pastFlags : place + 3 + 1 ≤ data.size := by omega
  have first : data.field place 2 = magic ↔ [0x1f, 0x8b] <+: data.rest place :=
    @Bytes.field_eq_iff data place [0x1f, 0x8b] toMethod
  have second : data.field (place + 2) 1 = deflateMethod ↔ [8] <+: data.rest (place + 2) :=
    @Bytes.field_eq_iff data (place + 2) [8] toFlags
  have third : data.field (place + 3) 1 = flags.toNat ↔ [flags] <+: data.rest (place + 3) :=
    @Bytes.field_eq_iff data (place + 3) [flags] pastFlags
  rw [first, second, third]
  change [0x1f, 0x8b] ++ ([8] ++ [flags]) <+: _ ↔ _
  rw [Bytes.append_prefix_rest_iff, Bytes.append_prefix_rest_iff]
  rfl

theorem headerStop_eq_ok_iff_skipFields {data : Bytes} {place stop : Nat} :
    headerStop data place = .ok stop ↔
      place + fixedHeaderSize ≤ data.size ∧ data.field place 2 = magic ∧
        data.field (place + 2) 1 = deflateMethod ∧
          skipFields (data.field (place + 3) 1) data optionalFields (place + fixedHeaderSize) =
            some stop := by
  rw [headerStop]
  split
  · rename_i short
    exact iff_of_false (by rintro ⟨⟩) fun header => Nat.not_le.mpr short header.1
  · rename_i room
    split
    · rename_i other
      exact iff_of_false (by rintro ⟨⟩) fun header => other header.2.1
    · rename_i first
      split
      · rename_i other
        exact iff_of_false (by rintro ⟨⟩) fun header => other header.2.2.1
      · rename_i method
        split
        · rename_i skipped
          rw [skipped, Except.ok.injEq, Option.some.injEq]
          constructor
          · exact fun same =>
              ⟨Nat.le_of_not_lt room, of_not_not first, of_not_not method, same⟩
          · exact fun header => header.2.2.2
        · rename_i skipped
          exact iff_of_false (by rintro ⟨⟩) fun header =>
            Option.some_ne_none stop (header.2.2.2.symm.trans skipped)

theorem headerStop_eq_ok_iff {data : Bytes} {place stop : Nat} :
    headerStop data place = .ok stop ↔
      ∃ bytes, IsHeader bytes ∧ bytes <+: data.rest place ∧ stop = place + bytes.length := by
  rw [headerStop_eq_ok_iff_skipFields]
  constructor
  · rintro ⟨room, first, method, skipped⟩
    have flagged : place + 3 < data.size := by
      rw [fixedHeaderSize] at room
      omega
    have read : data.field (place + 3) 1 = data[place + 3].toNat := by
      have stands : [data[place + 3]] <+: data.rest (place + 3) := by
        rw [Bytes.rest_of_lt flagged]
        exact List.prefix_append [_] _
      exact (Bytes.field_eq_iff flagged).mpr stands
    rw [read] at skipped
    obtain ⟨fields, form, follows, rfl⟩ := (skips_optionalFields _ room stop).mp skipped
    have begins := (fixedBytes_iff room _).mpr ⟨first, method, read⟩
    have fixed : ((data.rest (place + 4)).take 6).length = 6 := by
      rw [List.length_take, Bytes.length_rest]
      rw [fixedHeaderSize] at room
      omega
    refine ⟨_, ⟨data[place + 3], (data.rest (place + 4)).take 6, fields, fixed, form, rfl⟩, ?_, ?_⟩
    · rw [Bytes.append_prefix_rest_iff, Bytes.append_prefix_rest_iff, List.length_append, fixed]
      exact ⟨⟨begins, List.take_prefix 6 _⟩, follows⟩
    · rw [List.length_append, List.length_append, fixed]
      exact Nat.add_assoc ..
  · rintro ⟨_, ⟨flags, fixed, fields, length, form, rfl⟩, stands, rfl⟩
    have inside := Bytes.le_size_of_prefix (List.cons_ne_nil _ _) stands
    have stop := Bytes.stop_le_of_prefix inside stands
    rw [Bytes.append_prefix_rest_iff, Bytes.append_prefix_rest_iff, List.length_append,
      length] at stands
    rw [List.length_append, List.length_append, length] at stop ⊢
    obtain ⟨⟨begins, -⟩, follows⟩ := stands
    have room : place + fixedHeaderSize ≤ data.size := by
      change place + 10 ≤ data.size
      change place + (10 + fields.length) ≤ data.size at stop
      omega
    obtain ⟨first, method, read⟩ := (fixedBytes_iff room flags).mp begins
    refine ⟨room, first, method, ?_⟩
    rw [read]
    exact (skips_optionalFields _ room _).mpr
      ⟨fields, form, follows, (Nat.add_assoc place 10 fields.length).symm⟩

theorem IsHeader.le_length {bytes : List UInt8} (header : IsHeader bytes) :
    fixedHeaderSize ≤ bytes.length := by
  obtain ⟨flags, fixed, fields, length, -, rfl⟩ := header
  simp only [List.length_append, length]
  exact Nat.le_add_right 10 _

/-- A header does not begin with another header. -/
theorem IsHeader.eq_of_prefix {first second : List UInt8} (short : IsHeader first)
    (long : IsHeader second) (begins : first <+: second) : first = second := by
  have one : headerStop second.toArray 0 = .ok (0 + first.length) :=
    headerStop_eq_ok_iff.mpr ⟨first, short, begins, rfl⟩
  have other : headerStop second.toArray 0 = .ok (0 + second.length) :=
    headerStop_eq_ok_iff.mpr ⟨second, long, List.prefix_rfl, rfl⟩
  rw [one, Except.ok.injEq] at other
  exact begins.eq_of_length (by omega)

end DeflateAtlas.Gzip
