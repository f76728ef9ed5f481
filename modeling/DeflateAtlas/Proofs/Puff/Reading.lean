import DeflateAtlas.Proofs.Puff.Records

/-!
# Reading puffs back

Every record says by its own bytes where it ends.  The first byte of a piece says
which kind of piece it is and, of a run, how long; a table ends with the entry
that covers its last code length; a block says in its first byte of which kind it
is and whether a final padding comes after it.  So the blocks can be read back
from their puff, and a puff belongs to one sequence of blocks only.
-/

namespace DeflateAtlas

namespace Deflate.Token

/-- A token that has a record. -/
def Writable : Token → Prop
  | .literal _ => True
  | .reference length distance _ =>
      minMatch ≤ length ∧ length ≤ maxMatch ∧ 1 ≤ distance ∧ distance ≤ 32768

instance : (token : Token) → Decidable token.Writable
  | .literal _ => inferInstanceAs (Decidable True)
  | .reference length distance _ =>
      inferInstanceAs (Decidable (minMatch ≤ length ∧ length ≤ maxMatch ∧ 1 ≤ distance ∧
        distance ≤ 32768))

theorem Valid.writable {token : Token} (valid : token.Valid) : token.Writable := by
  cases token with
  | literal byte => trivial
  | reference length distance irregular =>
      obtain ⟨shortest, longest, nearest, farthest, -⟩ := valid
      exact ⟨shortest, longest, nearest, farthest⟩

end Deflate.Token

namespace Puff

open Deflate

/-! ## Taking bytes -/

/-- Something that takes bytes off the front of some records. -/
abbrev Reader := EStateM Unit (List UInt8)

variable {α β : Type}

def takeByte : Reader UInt8
  | [] => .error () []
  | byte :: records => .ok byte records

def takeBytes (number : Nat) : Reader (List UInt8) := fun records =>
  if number ≤ records.length then
    .ok (records.take number) (records.drop number)
  else
    .error () records

theorem consumes_takeByte : Consumes List.length takeByte := by
  intro before byte after ended
  cases before with
  | nil => cases ended
  | cons first records =>
      cases ended
      exact Nat.lt_succ_self _

theorem shrinks_takeBytes (number : Nat) : Shrinks List.length (takeBytes number) := by
  intro before bytes after ended
  simp only [takeBytes] at ended
  split at ended
  · cases ended
    rw [List.length_drop]
    exact Nat.sub_le _ _
  · cases ended

/-- A reader gives a value for some bytes and leaves what follows them. -/
def ReadsBack (reader : Reader α) (value : α) (bytes : List UInt8) : Prop :=
  ∀ after, reader (bytes ++ after) = .ok value after

namespace ReadsBack

protected theorem pure (value : α) : ReadsBack (pure value) value [] :=
  fun _ => rfl

protected theorem bind {reader : Reader α} {next : α → Reader β} {middle : α} {value : β}
    {before bytes : List UInt8} (first : ReadsBack reader middle before)
    (second : ReadsBack (next middle) value bytes) :
    ReadsBack (reader >>= next) value (before ++ bytes) := by
  intro after
  rw [List.append_assoc]
  exact bind_eq_ok_iff.mpr ⟨middle, _, first _, second after⟩

protected theorem map {reader : Reader α} {value : α} {bytes : List UInt8} (f : α → β)
    (reads : ReadsBack reader value bytes) : ReadsBack (f <$> reader) (f value) bytes :=
  fun after => map_eq_ok_iff.mpr ⟨value, reads after, rfl⟩

protected theorem bind_pure {reader : Reader α} {value : α} {bytes : List UInt8} (f : α → β)
    (reads : ReadsBack reader value bytes) :
    ReadsBack (do return f (← reader)) (f value) bytes :=
  fun after => bind_eq_ok_iff.mpr ⟨value, after, reads after, rfl⟩

end ReadsBack

theorem readsBack_takeByte (byte : UInt8) : ReadsBack takeByte byte [byte] :=
  fun _ => rfl

theorem readsBack_takeBytes {number : Nat} {bytes : List UInt8} (size : bytes.length = number) :
    ReadsBack (takeBytes number) bytes bytes := by
  intro after
  rw [takeBytes, if_pos (by rw [List.length_append]; omega), List.take_left' size,
    List.drop_left' size]

/-! ## Pieces -/

/-- Take what comes after the first byte of a piece. -/
def takePiece (marker : UInt8) : Reader Piece :=
  if marker.toNat < maxRun then
    Piece.run <$> takeBytes (marker.toNat + 1)
  else if marker = referenceMarker false ∨ marker = referenceMarker true then do
    let length ← takeByte
    let distance ← takeBytes 2
    return .reference (length.toNat + minMatch) (littleEndian distance.reverse + 1)
      (marker = referenceMarker true)
  else
    throw ()

/-- Take the next piece, or the mark of the end of the block. -/
def takeNext : Reader (Option Piece) := do
  let marker ← takeByte
  if marker = endOfBlockMarker then
    return none
  else
    some <$> takePiece marker

theorem shrinks_takePiece (marker : UInt8) : Shrinks List.length (takePiece marker) :=
  Shrinks.ite ((shrinks_takeBytes _).map _) <|
    Shrinks.ite (consumes_takeByte.shrinks.bind fun _ =>
      (shrinks_takeBytes _).bind fun _ => Shrinks.pure _) (Shrinks.throw _)

theorem consumes_takeNext : Consumes List.length takeNext :=
  consumes_takeByte.bind fun marker =>
    Shrinks.ite (Shrinks.pure _) ((shrinks_takePiece marker).map _)

/-- Take pieces up to the end of the block, after those seen so far. -/
def takePieces (seen : Array Piece) : Reader (Array Piece) := fun records =>
  match _step : takeNext records with
  | .error failure after => .error failure after
  | .ok none after => .ok seen after
  | .ok (some piece) after => takePieces (seen.push piece) after
termination_by records => records.length
decreasing_by exact consumes_takeNext _step

/-- Take the tokens of a block. -/
def takeTokens : Reader (List Token) :=
  (fun pieces => pieces.toList.flatMap Piece.tokens) <$> takePieces #[]

namespace Piece

/-- A piece that tokens are cut into. -/
def Valid : Piece → Prop
  | .run literals => literals ≠ [] ∧ literals.length ≤ maxRun
  | .reference length distance _ =>
      minMatch ≤ length ∧ length ≤ maxMatch ∧ 1 ≤ distance ∧ distance ≤ 32768

end Piece

theorem toNat_toUInt8 {number : Nat} (small : number < 256) : number.toUInt8.toNat = number := by
  rw [Nat.toUInt8, UInt8.toNat_ofNat', Nat.mod_eq_of_lt small]

theorem readsBack_run {literals : List UInt8} (valid : (Piece.run literals).Valid) :
    ReadsBack takeNext (some (.run literals)) (Piece.run literals).bytes := by
  have positive := List.length_pos_iff.mpr valid.1
  have room : literals.length ≤ 128 := valid.2
  have marker := toNat_toUInt8 (by omega : literals.length - 1 < 256)
  have other : (literals.length - 1).toUInt8 ≠ endOfBlockMarker := by
    intro same
    have value := congrArg UInt8.toNat same
    rw [marker, endOfBlockMarker] at value
    simp only [UInt8.reduceToNat] at value
    omega
  have size : literals.length = (literals.length - 1).toUInt8.toNat + 1 := by omega
  refine (readsBack_takeByte _).bind ?_
  rw [if_neg other, takePiece, if_pos (by rw [marker, maxRun]; omega)]
  exact ((readsBack_takeBytes size).map Piece.run).map some

theorem readsBack_reference {length distance : Nat} {irregular : Bool}
    (valid : (Piece.reference length distance irregular).Valid) :
    ReadsBack takeNext (some (.reference length distance irregular))
      (Piece.reference length distance irregular).bytes := by
  obtain ⟨shortest, longest, nearest, farthest⟩ := valid
  rw [minMatch] at shortest
  rw [maxMatch] at longest
  have sameLength : (length - minMatch).toUInt8.toNat + minMatch = length := by
    rw [minMatch, toNat_toUInt8 (by omega)]
    omega
  have sameDistance : littleEndian (bigEndian16 (distance - 1)).reverse + 1 = distance := by
    rw [bigEndian16, List.reverse_reverse, littleEndian_toLittleEndian,
      Nat.mod_eq_of_lt (by omega)]
    omega
  have same : Piece.reference length distance irregular =
      .reference ((length - minMatch).toUInt8.toNat + minMatch)
        (littleEndian (bigEndian16 (distance - 1)).reverse + 1) irregular := by
    rw [sameLength, sameDistance]
  have two : (bigEndian16 (distance - 1)).length = 2 := rfl
  have rest : ReadsBack (do
      let length ← takeByte
      let distance ← takeBytes 2
      return Piece.reference (length.toNat + minMatch) (littleEndian distance.reverse + 1) irregular)
      (.reference length distance irregular)
      ([(length - minMatch).toUInt8] ++ bigEndian16 (distance - 1)) := by
    rw [same]
    exact (readsBack_takeByte _).bind ((readsBack_takeBytes two).bind_pure _)
  refine (readsBack_takeByte (referenceMarker irregular)).bind ?_
  cases irregular with
  | false => exact rest.map some
  | true => exact rest.map some

theorem readsBack_piece {piece : Piece} (valid : piece.Valid) :
    ReadsBack takeNext (some piece) piece.bytes := by
  cases piece with
  | run literals => exact readsBack_run valid
  | reference length distance irregular => exact readsBack_reference valid

theorem takePieces_of_end {records after : List UInt8} (run : takeNext records = .ok none after)
    (seen : Array Piece) : takePieces seen records = .ok seen after := by
  rw [takePieces]
  split
  · rename_i failed
    rw [run] at failed
    cases failed
  · rename_i ended
    rw [run] at ended
    cases ended
    rfl
  · rename_i more
    rw [run] at more
    cases more

theorem takePieces_of_piece {records after : List UInt8} {piece : Piece}
    (run : takeNext records = .ok (some piece) after) (seen : Array Piece) :
    takePieces seen records = takePieces (seen.push piece) after := by
  conv => lhs; rw [takePieces]
  split
  · rename_i failed
    rw [run] at failed
    cases failed
  · rename_i ended
    rw [run] at ended
    cases ended
  · rename_i more
    rw [run] at more
    cases more
    rfl

theorem readsBack_pieces {pieces : List Piece} (valid : ∀ piece ∈ pieces, piece.Valid)
    (seen : Array Piece) :
    ReadsBack (takePieces seen) (seen ++ pieces.toArray)
      (piecesPuff pieces ++ [endOfBlockMarker]) := by
  intro after
  induction pieces generalizing seen with
  | nil => exact takePieces_of_end rfl seen
  | cons piece pieces ih =>
      rw [List.forall_mem_cons] at valid
      have run := readsBack_piece valid.1 (piecesPuff pieces ++ [endOfBlockMarker] ++ after)
      rw [← List.append_assoc, ← List.append_assoc] at run
      rw [piecesPuff, List.flatMap_cons, ← piecesPuff, takePieces_of_piece run, ih valid.2]
      simp

/-! ## Tokens -/

theorem tokens_runs (literals : List UInt8) :
    (runs literals).flatMap Piece.tokens = literals.map .literal := by
  fun_induction runs literals with
  | case1 literals nothing =>
      rw [List.length_eq_zero_iff.mp nothing]
      rfl
  | case2 literals some ih =>
      rw [List.flatMap_cons, ih, Piece.tokens, ← List.map_append, List.take_append_drop]

/-- The pieces of tokens hold the tokens in order. -/
theorem tokens_pieces (literals : List UInt8) (tokens : List Token) :
    (pieces literals tokens).flatMap Piece.tokens = literals.map .literal ++ tokens := by
  fun_induction pieces literals tokens with
  | case1 literals => rw [tokens_runs, List.append_nil]
  | case2 literals byte tokens ih =>
      rw [ih, List.map_append, List.append_assoc]
      rfl
  | case3 literals length distance irregular tokens ih =>
      rw [List.flatMap_append, tokens_runs, List.flatMap_cons, ih]
      rfl

theorem valid_runs (literals : List UInt8) : ∀ piece ∈ runs literals, piece.Valid := by
  fun_induction runs literals with
  | case1 => exact fun _ => nofun
  | case2 literals some ih =>
      intro piece inside
      rcases List.mem_cons.mp inside with rfl | later
      · refine ⟨?_, List.length_take_le _ _⟩
        intro nothing
        have none := congrArg List.length nothing
        rw [List.length_take, List.length_nil, maxRun] at none
        omega
      · exact ih piece later

theorem valid_pieces (literals : List UInt8) {tokens : List Token}
    (writable : ∀ token ∈ tokens, token.Writable) :
    ∀ piece ∈ pieces literals tokens, piece.Valid := by
  fun_induction pieces literals tokens with
  | case1 literals => exact valid_runs literals
  | case2 literals byte tokens ih => exact ih fun token inside => writable token (.tail _ inside)
  | case3 literals length distance irregular tokens ih =>
      intro piece inside
      rcases List.mem_append.mp inside with before | later
      · exact valid_runs literals piece before
      · rcases List.mem_cons.mp later with rfl | later
        · exact writable _ (List.mem_cons_self ..)
        · exact ih (fun token inside => writable token (.tail _ inside)) piece later

theorem readsBack_tokens {tokens : List Token} (valid : ∀ token ∈ tokens, token.Valid) :
    ReadsBack takeTokens tokens (tokensPuff tokens) := by
  have whole := tokens_pieces [] tokens
  rw [List.map_nil, List.nil_append] at whole
  have writable : ∀ token ∈ tokens, token.Writable := fun token inside =>
    (valid token inside).writable
  have reads := (readsBack_pieces (valid_pieces [] writable) #[]).map
    fun pieces => pieces.toList.flatMap Piece.tokens
  rwa [Array.empty_append, List.toList_toArray, whole] at reads

/-! ## Tables -/

def takeEntry : Reader LengthEntry := do
  let symbol ← takeByte
  if symbol.toNat ≤ 15 then
    return .single symbol.toNat
  else
    let count ← takeByte
    if symbol = 16 then
      return .repeatPrevious count.toNat
    else if symbol = 17 then
      return .fewZeros count.toNat
    else if symbol = 18 then
      return .manyZeros count.toNat
    else
      throw ()

theorem consumes_takeEntry : Consumes List.length takeEntry :=
  consumes_takeByte.bind fun _ =>
    Shrinks.ite (Shrinks.pure _) <| consumes_takeByte.shrinks.bind fun _ =>
      Shrinks.ite (Shrinks.pure _) <| Shrinks.ite (Shrinks.pure _) <|
        Shrinks.ite (Shrinks.pure _) (Shrinks.throw _)

/-- Take entries that cover `number` code lengths, after those seen so far. -/
def takeEntries (number : Nat) (seen : Array LengthEntry) : Reader (Array LengthEntry) :=
  fun records =>
    if number = 0 then
      .ok seen records
    else
      match _step : takeEntry records with
      | .error failure after => .error failure after
      | .ok entry after => takeEntries (number - entry.count) (seen.push entry) after
termination_by records => records.length
decreasing_by exact consumes_takeEntry _step

def takeTable : Reader DynamicHeader := do
  let literalCount := (← takeByte).toNat + 257
  let distanceCount := (← takeByte).toNat + 1
  let sentCount := (← takeByte).toNat + 4
  let sentLengths := (← takeBytes sentCount).map UInt8.toNat
  let entries := (← takeEntries (literalCount + distanceCount) #[]).toList
  return { literalCount, distanceCount, sentLengths, entries }

theorem readsBack_entry {entry : LengthEntry} (valid : entry.Valid) :
    ReadsBack takeEntry entry (entryRecord entry) := by
  have count := toNat_toUInt8 (Nat.lt_of_le_of_lt valid.count_le (by decide))
  intro after
  cases entry with
  | single length =>
      have short : length ≤ 15 := valid
      have value := toNat_toUInt8 (by omega : length < 256)
      refine bind_eq_ok_iff.mpr ⟨length.toUInt8, after, rfl, ?_⟩
      rw [value, if_pos short]
      rfl
  | repeatPrevious number =>
      exact congrArg (EStateM.Result.ok · after) (congrArg LengthEntry.repeatPrevious count)
  | fewZeros number =>
      exact congrArg (EStateM.Result.ok · after) (congrArg LengthEntry.fewZeros count)
  | manyZeros number =>
      exact congrArg (EStateM.Result.ok · after) (congrArg LengthEntry.manyZeros count)

theorem takeEntries_of_ok {number : Nat} {records after : List UInt8} {entry : LengthEntry}
    (more : number ≠ 0) (run : takeEntry records = .ok entry after) (seen : Array LengthEntry) :
    takeEntries number seen records = takeEntries (number - entry.count) (seen.push entry) after := by
  conv => lhs; rw [takeEntries, if_neg more]
  split
  · rename_i failed
    rw [run] at failed
    cases failed
  · rename_i ended
    rw [run] at ended
    cases ended
    rfl

theorem readsBack_entries {entries : List LengthEntry} (valid : ∀ entry ∈ entries, entry.Valid)
    (seen : Array LengthEntry) :
    ReadsBack (takeEntries (covered entries) seen) (seen ++ entries.toArray)
      (entries.flatMap entryRecord) := by
  intro after
  induction entries generalizing seen with
  | nil =>
      rw [covered_nil, takeEntries, if_pos rfl]
      simp
  | cons entry entries ih =>
      rw [List.forall_mem_cons] at valid
      have positive := valid.1.count_pos
      have run := readsBack_entry valid.1 (entries.flatMap entryRecord ++ after)
      rw [← List.append_assoc] at run
      rw [List.flatMap_cons, covered_cons, takeEntries_of_ok (by omega) run,
        Nat.add_sub_cancel_left, ih valid.2]
      simp

theorem map_toNat_toUInt8 {numbers : List Nat} (small : ∀ number ∈ numbers, number < 8) :
    (numbers.map Nat.toUInt8).map UInt8.toNat = numbers := by
  rw [List.map_map]
  refine (List.map_congr_left fun number inside => ?_).trans (List.map_id numbers)
  exact toNat_toUInt8 (Nat.lt_trans (small number inside) (by decide))

theorem readsBack_table {header : DynamicHeader} (valid : header.Valid) :
    ReadsBack takeTable header (tableRecord header) := by
  obtain ⟨literalCount, distanceCount, sentLengths, entries⟩ := header
  have literalRange : 257 ≤ literalCount ∧ literalCount ≤ 286 := valid.literals
  have distanceRange : 1 ≤ distanceCount ∧ distanceCount ≤ 30 := valid.distances
  have sentRange : 4 ≤ sentLengths.length ∧ sentLengths.length ≤ 19 := valid.sent
  have covers : covered entries = literalCount + distanceCount := valid.covers
  have literals : (literalCount - 257).toUInt8.toNat + 257 = literalCount := by
    rw [toNat_toUInt8 (by omega)]
    omega
  have distances : (distanceCount - 1).toUInt8.toNat + 1 = distanceCount := by
    rw [toNat_toUInt8 (by omega)]
    omega
  have sent : (sentLengths.map Nat.toUInt8).length =
      (sentLengths.length - 4).toUInt8.toNat + 4 := by
    rw [toNat_toUInt8 (by omega), List.length_map]
    omega
  have entriesRead : ReadsBack (takeEntries (literalCount + distanceCount) #[]) entries.toArray
      (entries.flatMap entryRecord) := by
    have reads := readsBack_entries (fun entry inside => (valid.entries.1 entry inside).1) #[]
    rwa [Array.empty_append, covers] at reads
  intro after
  simp only [tableRecord, List.cons_append, List.nil_append, List.append_assoc]
  refine bind_eq_ok_iff.mpr ⟨_, _, rfl, bind_eq_ok_iff.mpr ⟨_, _, rfl, bind_eq_ok_iff.mpr
    ⟨_, _, rfl, bind_eq_ok_iff.mpr ⟨_, _, readsBack_takeBytes sent _, ?_⟩⟩⟩⟩
  rw [literals, distances]
  refine bind_eq_ok_iff.mpr ⟨_, _, entriesRead after, ?_⟩
  rw [map_toNat_toUInt8 valid.sentLengths]
  rfl

/-! ## Blocks -/

def takeContent : BlockKind → Reader Content
  | .stored => do
      let padding ← takeByte
      let size ← takeBytes 2
      let bytes ← takeBytes (littleEndian size)
      return .stored padding bytes.toArray
  | .fixed => Content.fixed <$> takeTokens
  | .dynamic => do
      let header ← takeTable
      let tokens ← takeTokens
      return .dynamic header tokens

def takeBlock : Reader Block := do
  let header ← takeByte
  match BlockKind.ofNumber? (header.toNat / 64) with
  | none => throw ()
  | some kind =>
      let content ← takeContent kind
      if header.toNat / 32 % 2 = 1 then
        return ⟨content, some (← takeByte)⟩
      else
        return ⟨content, none⟩

theorem shrinks_takePieces (seen : Array Piece) : Shrinks List.length (takePieces seen) := by
  intro before value after ended
  fun_induction takePieces seen before with
  | case1 => cases ended
  | case2 seen records after run =>
      cases ended
      exact consumes_takeNext.shrinks run
  | case3 seen records piece middle run ih =>
      exact Nat.le_trans (ih ended) (consumes_takeNext.shrinks run)

theorem shrinks_takeEntries (number : Nat) (seen : Array LengthEntry) :
    Shrinks List.length (takeEntries number seen) := by
  intro before value after ended
  fun_induction takeEntries number seen before with
  | case1 => cases ended; exact Nat.le_refl _
  | case2 => cases ended
  | case3 number seen records more entry middle run ih =>
      exact Nat.le_trans (ih ended) (consumes_takeEntry.shrinks run)

theorem shrinks_takeTokens : Shrinks List.length takeTokens :=
  (shrinks_takePieces _).map _

theorem shrinks_takeTable : Shrinks List.length takeTable :=
  consumes_takeByte.shrinks.bind fun _ => consumes_takeByte.shrinks.bind fun _ =>
    consumes_takeByte.shrinks.bind fun _ => (shrinks_takeBytes _).bind fun _ =>
      (shrinks_takeEntries _ _).bind fun _ => Shrinks.pure _

theorem shrinks_takeContent (kind : BlockKind) : Shrinks List.length (takeContent kind) := by
  cases kind with
  | stored =>
      exact consumes_takeByte.shrinks.bind fun _ => (shrinks_takeBytes _).bind fun _ =>
        (shrinks_takeBytes _).bind fun _ => Shrinks.pure _
  | fixed => exact shrinks_takeTokens.map _
  | dynamic =>
      exact shrinks_takeTable.bind fun _ => shrinks_takeTokens.bind fun _ => Shrinks.pure _

theorem consumes_takeBlock : Consumes List.length takeBlock := by
  refine consumes_takeByte.bind fun header => ?_
  split
  · exact Shrinks.throw _
  · exact (shrinks_takeContent _).bind fun _ =>
      Shrinks.ite (consumes_takeByte.shrinks.bind fun _ => Shrinks.pure _) (Shrinks.pure _)

/-- Take blocks up to the end of the records, after those seen so far. -/
def takeBlocks (seen : Array Block) : Reader (Array Block) := fun records =>
  if records = [] then
    .ok seen []
  else
    match _step : takeBlock records with
    | .error failure after => .error failure after
    | .ok block after => takeBlocks (seen.push block) after
termination_by records => records.length
decreasing_by exact consumes_takeBlock _step

/-- The blocks of a puff. -/
def readBack (records : List UInt8) : Option (List Block) :=
  match takeBlocks #[] records with
  | .ok blocks _ => some blocks.toList
  | .error _ _ => none

theorem readsBack_content {content : Content} {position : Nat} (valid : content.Valid position) :
    ReadsBack (takeContent content.kind) content (contentPuff content) := by
  cases content with
  | stored padding bytes =>
      have short : bytes.size ≤ 0xffff := valid.2
      have size : littleEndian (toLittleEndian 2 bytes.size) = bytes.toList.length := by
        rw [littleEndian_toLittleEndian, Nat.mod_eq_of_lt (by omega), Array.length_toList]
      have two : (toLittleEndian 2 bytes.size).length = 2 := length_toLittleEndian 2 _
      exact (readsBack_takeByte padding).bind ((readsBack_takeBytes two).bind
        ((readsBack_takeBytes size.symm).bind_pure fun bytes =>
          Content.stored padding bytes.toArray))
  | fixed tokens => exact (readsBack_tokens valid).map Content.fixed
  | dynamic header tokens =>
      have tokensValid : ∀ token ∈ tokens, token.Valid := fun token inside =>
        (valid.2.2.2 token inside).1
      exact (readsBack_table valid.1).bind ((readsBack_tokens tokensValid).bind_pure _)

theorem headerByte_spec (kind : BlockKind) (last : Bool) :
    BlockKind.ofNumber? ((headerByte kind last).toNat / 64) = some kind ∧
      ((headerByte kind last).toNat / 32 % 2 = 1 ↔ last = true) := by
  cases kind <;> cases last <;> decide

theorem readsBack_block {block : Block} {position : Nat} (valid : block.Valid position) :
    ReadsBack takeBlock block (blockPuff block) := by
  obtain ⟨content, finalPadding⟩ := block
  obtain ⟨kind, final⟩ := headerByte_spec content.kind finalPadding.isSome
  refine (readsBack_takeByte _).bind ?_
  dsimp only [Block.isFinal]
  rw [kind]
  refine (readsBack_content valid.1).bind ?_
  cases finalPadding with
  | none =>
      rw [if_neg (by rw [final]; decide)]
      exact ReadsBack.pure _
  | some padding =>
      rw [if_pos (final.mpr rfl)]
      exact (readsBack_takeByte padding).bind_pure _

theorem takeBlocks_of_ok {records after : List UInt8} {block : Block}
    (run : takeBlock records = .ok block after) (seen : Array Block) :
    takeBlocks seen records = takeBlocks (seen.push block) after := by
  have more : records ≠ [] := by
    rintro rfl
    cases run
  conv => lhs; rw [takeBlocks, if_neg more]
  split
  · rename_i failed
    rw [run] at failed
    cases failed
  · rename_i ended
    rw [run] at ended
    cases ended
    rfl

theorem takeBlocks_puff {blocks : List Block} {position : Nat} (valid : BlocksValid position blocks)
    (seen : Array Block) : takeBlocks seen (puff blocks) = .ok (seen ++ blocks.toArray) [] := by
  induction blocks generalizing position seen with
  | nil =>
      have none : puff [] = [] := rfl
      rw [none, takeBlocks, if_pos rfl]
      simp
  | cons block blocks ih =>
      rw [puff_cons, takeBlocks_of_ok (readsBack_block valid.1 _), ih valid.2.2]
      simp

/-- Blocks that can follow one another, wherever they begin, are read back from their puff. -/
theorem readBack_puff {blocks : List Block} {position : Nat} (valid : BlocksValid position blocks) :
    readBack (puff blocks) = some blocks := by
  rw [readBack, takeBlocks_puff valid]
  simp

theorem puff_injective {first second : List Block} {firstPosition secondPosition : Nat}
    (firstValid : BlocksValid firstPosition first)
    (secondValid : BlocksValid secondPosition second) (same : puff first = puff second) :
    first = second := by
  have read := readBack_puff secondValid
  rw [← same, readBack_puff firstValid] at read
  exact Option.some.inj read

end Puff

end DeflateAtlas
