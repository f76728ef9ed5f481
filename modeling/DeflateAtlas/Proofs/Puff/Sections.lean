import DeflateAtlas.Proofs.Puff.Calls
import DeflateAtlas.Proofs.Puff.Reading

/-!
# Sections of tokens

The tokens of a block reach a sink one by one, and the sink may be told to write
its literals at any moment in between.  Wherever that happens, the records that
are appended up to the end of the block are read back as just these tokens.  If
it never happens, the literals between two references share as few runs as
their number allows.
-/

namespace DeflateAtlas.Puff

open Deflate

/-! ## Fewest runs -/

theorem pieces_literals (waiting literals : List UInt8) (tokens : List Token) :
    pieces waiting (literals.map .literal ++ tokens) = pieces (waiting ++ literals) tokens := by
  induction literals generalizing waiting with
  | nil => rw [List.map_nil, List.nil_append, List.append_nil]
  | cons byte literals ih =>
      rw [List.map_cons, List.cons_append, pieces, ih, List.append_assoc]
      rfl

theorem pieces_of_other {tokens : List Token} (other : ∀ byte, tokens.head? ≠ some (.literal byte))
    (literals : List UInt8) : pieces literals tokens = runs literals ++ pieces [] tokens := by
  cases tokens with
  | nil => rw [pieces, pieces, runs_nil, List.append_nil]
  | cons token tokens =>
      cases token with
      | literal byte => exact absurd rfl (other byte)
      | reference length distance irregular => rw [pieces, pieces, runs_nil, List.nil_append]

/-- A reference leaves nothing waiting. -/
theorem pieces_reference (waiting : List UInt8) (before : List Token) (length distance : Nat)
    (irregular : Bool) (tokens : List Token) :
    pieces waiting (before ++ [.reference length distance irregular] ++ tokens) =
      pieces waiting (before ++ [.reference length distance irregular]) ++ pieces [] tokens := by
  induction before generalizing waiting with
  | nil => simp [pieces, runs_nil]
  | cons token before ih =>
      cases token with
      | literal byte => exact ih (waiting ++ [byte])
      | reference otherLength otherDistance otherIrregular =>
          rw [List.cons_append, List.cons_append, pieces, pieces, ih, List.append_assoc,
            List.cons_append]

theorem pieces_append {before : List Token}
    (other : ∀ byte, before.getLast? ≠ some (.literal byte)) (tokens : List Token) :
    pieces [] (before ++ tokens) = pieces [] before ++ pieces [] tokens := by
  rcases before.eq_nil_or_concat with rfl | ⟨front, token, rfl⟩
  · rw [pieces, runs_nil]
    rfl
  · rw [List.concat_eq_append] at other ⊢
    cases token with
    | literal byte => exact absurd List.getLast?_concat (other byte)
    | reference length distance irregular =>
        exact pieces_reference [] front length distance irregular tokens

theorem length_runs_lt (literals : List UInt8) :
    (runs literals).length * maxRun < literals.length + maxRun := by
  fun_induction runs literals with
  | case1 literals nothing =>
      rw [nothing]
      decide
  | case2 literals some ih =>
      rw [List.length_drop, maxRun] at ih
      rw [List.length_cons, maxRun]
      omega

theorem Piece.Valid.length_tokens_le {piece : Piece} (valid : piece.Valid) :
    piece.tokens.length ≤ maxRun := by
  cases piece with
  | run literals =>
      rw [Piece.tokens, List.length_map]
      exact valid.2
  | reference length distance irregular => exact (by decide : 1 ≤ maxRun)

theorem length_tokens_le {pieces : List Piece} (valid : ∀ piece ∈ pieces, piece.Valid) :
    (pieces.flatMap Piece.tokens).length ≤ pieces.length * maxRun := by
  induction pieces with
  | nil => exact Nat.zero_le _
  | cons piece pieces ih =>
      rw [List.forall_mem_cons] at valid
      rw [List.flatMap_cons, List.length_append, List.length_cons, Nat.succ_mul, Nat.add_comm]
      exact Nat.add_le_add (ih valid.2) valid.1.length_tokens_le

/-- No pieces that hold some literals are fewer than their runs. -/
theorem length_runs_le {literals : List UInt8} {pieces : List Piece}
    (valid : ∀ piece ∈ pieces, piece.Valid)
    (same : pieces.flatMap Piece.tokens = literals.map .literal) :
    (runs literals).length ≤ pieces.length := by
  have most := length_tokens_le valid
  have least := length_runs_lt literals
  rw [same, List.length_map, maxRun] at most
  rw [maxRun] at least
  omega

/-- Some pieces of tokens hold a run of literals that ends neither side of a reference, and they
are as few as can be. -/
theorem pieces_fewest {before after : List Token} (literals : List UInt8)
    (starts : ∀ byte, before.getLast? ≠ some (.literal byte))
    (stops : ∀ byte, after.head? ≠ some (.literal byte)) :
    ∃ first middle last,
      pieces [] (before ++ literals.map .literal ++ after) = first ++ middle ++ last ∧
        first.flatMap Piece.tokens = before ∧
        middle.flatMap Piece.tokens = literals.map .literal ∧
        last.flatMap Piece.tokens = after ∧
        ∀ others : List Piece, (∀ piece ∈ others, piece.Valid) →
          others.flatMap Piece.tokens = literals.map .literal → middle.length ≤ others.length := by
  refine ⟨pieces [] before, runs literals, pieces [] after, ?_, tokens_pieces [] before,
    tokens_runs literals, tokens_pieces [] after, fun others valid same => length_runs_le valid same⟩
  rw [List.append_assoc, pieces_append starts, pieces_literals, List.nil_append,
    pieces_of_other stops, List.append_assoc]

/-! ## Sections -/

theorem piecesPuff_injective {first second : List Piece}
    (firstValid : ∀ piece ∈ first, piece.Valid) (secondValid : ∀ piece ∈ second, piece.Valid)
    (same : piecesPuff first = piecesPuff second) : first = second := by
  have read := readsBack_pieces secondValid #[] []
  rw [← same, readsBack_pieces firstValid #[] []] at read
  simpa using read

namespace Sink

variable {sink : Sink} {buffer : Bytes} {tokens : List Token}

/-- What a sink has appended to a buffer are records of pieces, which hold some tokens together
with the literals that wait. -/
def Holds (sink : Sink) (buffer : Bytes) (tokens : List Token) : Prop :=
  ∃ pieces, sink.output = some (buffer ++ (piecesPuff pieces).toArray) ∧
    (∀ piece ∈ pieces, piece.Valid) ∧
    pieces.flatMap Piece.tokens ++ sink.waiting.toList.map .literal = tokens

namespace Holds

theorem start (appends : sink.output = some buffer) :
    sink.Holds buffer (sink.waiting.toList.map .literal) :=
  ⟨[], appends.trans (congrArg some Array.append_empty.symm), fun _ => nofun, rfl⟩

theorem push (holds : sink.Holds buffer tokens) (byte : UInt8) :
    ({ sink with waiting := sink.waiting.push byte } : Sink).Holds buffer
      (tokens ++ [.literal byte]) := by
  obtain ⟨pieces, output, valid, same⟩ := holds
  refine ⟨pieces, output, valid, ?_⟩
  rw [← same, Array.toList_push, List.map_append, List.append_assoc]
  rfl

/-- Pieces may follow when nothing waits. -/
theorem append (holds : sink.Holds buffer tokens) (nothing : sink.waiting = #[])
    {more : List Piece} (valid : ∀ piece ∈ more, piece.Valid) :
    (sink.append (piecesPuff more).toArray).Holds buffer
      (tokens ++ more.flatMap Piece.tokens) := by
  obtain ⟨pieces, output, earlier, same⟩ := holds
  rw [nothing] at same
  refine ⟨pieces ++ more, ?_, List.forall_mem_append.mpr ⟨earlier, valid⟩, ?_⟩
  · rw [output_append output, Array.append_assoc, List.append_toArray (piecesPuff pieces),
      piecesPuff, piecesPuff, piecesPuff, List.flatMap_append]
  · rw [waiting_append, nothing, ← same]
    simp

theorem flush (holds : sink.Holds buffer tokens) (room : sink.waiting.size ≤ maxRun) :
    sink.flush.Holds buffer tokens := by
  obtain ⟨pieces, output, valid, same⟩ := holds
  have emptied : sink.emptied.Holds buffer (pieces.flatMap Piece.tokens) :=
    ⟨pieces, output, valid, List.append_nil _⟩
  have written := emptied.append rfl (valid_runs sink.waiting.toList)
  rwa [tokens_runs, same, ← flush_of_waiting room] at written

theorem insert (holds : sink.Holds buffer tokens) (room : sink.HasRoom) {token : Token}
    (writable : token.Writable) :
    (sink.insert (.token token)).Holds buffer (tokens ++ [token]) := by
  cases token with
  | literal byte =>
      change (sink.insertLiteral byte).Holds _ _
      rw [insertLiteral_eq]
      split
      · rename_i full
        exact (holds.push byte).flush (Nat.le_of_eq full)
      · exact holds.push byte
  | reference length distance irregular =>
      have reference : ∀ piece ∈ [Piece.reference length distance irregular], piece.Valid := by
        rw [List.forall_mem_singleton]
        exact writable
      have written := (holds.flush (Nat.le_of_lt room)).append (waiting_flush sink) reference
      rw [insert_of_other (by simp)]
      simpa [piecesPuff, Piece.bytes, Piece.tokens, record] using written

theorem serve (holds : sink.Holds buffer tokens) (room : sink.HasRoom) {calls : List (Call Token)}
    (writable : ∀ token ∈ inserted calls, token.Writable) :
    (sink.serve (calls.map (.map .token))).Holds buffer (tokens ++ inserted calls) := by
  induction calls generalizing sink tokens with
  | nil =>
      rw [inserted, List.filterMap_nil, List.append_nil]
      exact holds
  | cons call calls ih =>
      cases call with
      | insert token =>
          have all : inserted (.insert token :: calls) = [token] ++ inserted calls := rfl
          rw [all, List.forall_mem_append, List.forall_mem_singleton] at writable
          rw [all, ← List.append_assoc]
          exact ih (holds.insert room writable.1) (room.insert _) writable.2
      | flush => exact ih (holds.flush (Nat.le_of_lt room)) (hasRoom_flush sink) writable

/-- The record of the end of a block comes after those of pieces that hold all tokens. -/
theorem endOfBlock (holds : sink.Holds buffer tokens) (room : sink.HasRoom) :
    ∃ pieces, (sink.insert .endOfBlock).output =
        some (buffer ++ (piecesPuff pieces ++ [endOfBlockMarker]).toArray) ∧
      (∀ piece ∈ pieces, piece.Valid) ∧ pieces.flatMap Piece.tokens = tokens := by
  obtain ⟨pieces, output, valid, same⟩ := holds.flush (Nat.le_of_lt room)
  rw [waiting_flush] at same
  refine ⟨pieces, ?_, valid, (List.append_nil _).symm.trans same⟩
  rw [insert_of_other (by simp), output_append output, Array.append_assoc, record,
    List.append_toArray (piecesPuff pieces) [endOfBlockMarker]]

end Holds

/-- Without calls that write the waiting literals, these share their runs with what follows. -/
theorem output_endOfBlock (appends : sink.output = some buffer) (room : sink.HasRoom)
    {calls : List (Call Token)} (steady : .flush ∉ calls) :
    ((sink.serve (calls.map (.map .token))).insert .endOfBlock).output =
      some (buffer ++
        (tokensPuff (sink.waiting.toList.map .literal ++ inserted calls)).toArray) := by
  have only : calls = (inserted calls).map .insert := by
    induction calls with
    | nil => rfl
    | cons call calls ih =>
        cases call with
        | insert token =>
            exact congrArg (Call.insert token :: ·) (ih fun later => steady (.tail _ later))
        | flush => exact absurd (List.mem_cons_self ..) steady
  have served : sink.serve (calls.map (.map .token)) =
      ((inserted calls).map Element.token).foldl Sink.insert sink := by
    rw [only, Sink.serve, List.foldl_map, List.foldl_map, List.foldl_map, ← only]
    rfl
  have emptied : sink.emptied.output = some buffer := appends
  rw [served, insert_of_other (by simp), flush_insertTokens room, append_append,
    output_append emptied, tokensPuff, pieces_literals, record, List.nil_append,
    List.append_toArray (piecesPuff _) [endOfBlockMarker]]

/-- Tokens that are inserted up to the end of a block, with the waiting literals written any
number of times in between, are read back from what is appended. -/
theorem readsBack_section (appends : sink.output = some buffer) (room : sink.HasRoom)
    {calls : List (Call Token)} (writable : ∀ token ∈ inserted calls, token.Writable) :
    let tokens := sink.waiting.toList.map Token.literal ++ inserted calls
    ∃ (appended : Bytes) (pieces : Array Piece),
      ((sink.serve (calls.map (.map .token))).insert .endOfBlock).output =
          some (buffer ++ appended) ∧
        ReadsBack takeTokens tokens appended.toList ∧
        ReadsBack (takePieces #[]) pieces appended.toList ∧
        pieces.toList.flatMap Piece.tokens = tokens ∧
        (∀ literals, .run literals ∈ pieces.toList →
          literals ≠ [] ∧ literals.length ≤ maxRun) ∧
        (.flush ∉ calls → ∀ (before : List Token) (literals : List UInt8) (after : List Token),
          tokens = before ++ literals.map .literal ++ after →
          (∀ byte, before.getLast? ≠ some (.literal byte)) →
          (∀ byte, after.head? ≠ some (.literal byte)) →
          ∃ first middle last, pieces.toList = first ++ middle ++ last ∧
            first.flatMap Piece.tokens = before ∧
            middle.flatMap Piece.tokens = literals.map .literal ∧
            last.flatMap Piece.tokens = after ∧
            ∀ others : List Piece, (∀ piece ∈ others, piece.Valid) →
              others.flatMap Piece.tokens = literals.map .literal →
              middle.length ≤ others.length) := by
  intro tokens
  have allWritable : ∀ token ∈ tokens, token.Writable := by
    refine List.forall_mem_append.mpr ⟨?_, writable⟩
    rw [List.forall_mem_map]
    exact fun _ _ => trivial
  have holds := (Holds.start appends).serve room writable
  obtain ⟨found, output, valid, same⟩ := holds.endOfBlock (room.serve _)
  have reads := readsBack_pieces valid #[]
  rw [Array.empty_append] at reads
  have tokensRead := reads.map fun pieces => pieces.toList.flatMap Piece.tokens
  rw [List.toList_toArray, same] at tokensRead
  refine ⟨_, found.toArray, output, tokensRead, reads, same,
    fun literals inside => valid _ inside, ?_⟩
  intro steady before literals after split starts stops
  have whole : found = pieces [] tokens := by
    have written := output_endOfBlock appends room steady
    rw [output, Option.some.injEq, Array.append_right_inj] at written
    have records := congrArg Array.toList written
    exact piecesPuff_injective valid (valid_pieces [] allWritable) (List.append_cancel_right records)
  rw [List.toList_toArray, whole, split]
  exact pieces_fewest literals starts stops

/-- Literals that look like markers, the first of which has waited since before. -/
theorem readsBack_section_markers :
    ∃ appended : Bytes,
      ((serve ⟨some #[7], 1, #[128]⟩
        [.insert (.token (.literal 255)), .flush, .insert (.token (.reference 258 1 true)),
          .insert (.token (.literal 0))]).insert .endOfBlock).output = some (#[7] ++ appended) ∧
      ReadsBack takeTokens [.literal 128, .literal 255, .reference 258 1 true, .literal 0]
        appended.toList := by
  obtain ⟨appended, -, output, read, -⟩ := @readsBack_section ⟨some #[7], 1, #[128]⟩ #[7] rfl
    (by decide)
    [.insert (.literal 255), .flush, .insert (.reference 258 1 true), .insert (.literal 0)]
    (by decide)
  exact ⟨appended, output, read⟩

end Sink

end DeflateAtlas.Puff
