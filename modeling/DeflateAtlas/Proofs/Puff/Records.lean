import DeflateAtlas.Proofs.Deflate.Spelling
import DeflateAtlas.Puff.Sink

/-!
# The puff of a sequence of blocks

`puff` writes down the records of blocks by themselves: the header of each
block, what it holds, and the padding after the final one.  Its tokens are cut
into pieces, the references and the runs of literals between them; a run longer
than 128 literals is cut into full runs and a last one.  A sink that gets the
elements of blocks one by one appends just these records and has nothing
waiting after the last.
-/

namespace DeflateAtlas.Puff

open Deflate

/-! ## Pieces -/

/-- What one record holds of the tokens of a block. -/
inductive Piece
  | run (literals : List UInt8)
  | reference (length distance : Nat) (irregular : Bool)
  deriving DecidableEq

namespace Piece

def tokens : Piece → List Token
  | .run literals => literals.map .literal
  | .reference length distance irregular => [.reference length distance irregular]

def bytes : Piece → List UInt8
  | .run literals => (literals.length - 1).toUInt8 :: literals
  | .reference length distance irregular =>
      [referenceMarker irregular, (length - minMatch).toUInt8] ++ bigEndian16 (distance - 1)

end Piece

/-- Literals in runs, all of which but the last are full. -/
def runs (literals : List UInt8) : List Piece :=
  if literals.length = 0 then
    []
  else
    .run (literals.take maxRun) :: runs (literals.drop maxRun)
termination_by literals.length
decreasing_by
  rw [List.length_drop, maxRun]
  omega

/-- The pieces of tokens that come after some literals. -/
def pieces : (literals : List UInt8) → List Token → List Piece
  | literals, [] => runs literals
  | literals, .literal byte :: tokens => pieces (literals ++ [byte]) tokens
  | literals, .reference length distance irregular :: tokens =>
      runs literals ++ .reference length distance irregular :: pieces [] tokens

/-- The records of pieces. -/
def piecesPuff (pieces : List Piece) : List UInt8 :=
  pieces.flatMap Piece.bytes

/-- The records of tokens and of the end of their block. -/
def tokensPuff (tokens : List Token) : List UInt8 :=
  piecesPuff (pieces [] tokens) ++ [endOfBlockMarker]

/-! ## Blocks -/

/-- The records of a content. -/
def contentPuff : Content → List UInt8
  | .stored padding bytes => padding :: (toLittleEndian 2 bytes.size ++ bytes.toList)
  | .fixed tokens => tokensPuff tokens
  | .dynamic header tokens => tableRecord header ++ tokensPuff tokens

/-- The first byte of a block. -/
def headerByte (kind : BlockKind) (last : Bool) : UInt8 :=
  (kind.number * 64 + last.toNat * 32).toUInt8

/-- The records of a block. -/
def blockPuff (block : Block) : List UInt8 :=
  headerByte block.content.kind block.isFinal ::
    (contentPuff block.content ++ block.finalPadding.toList)

/-- The records of blocks. -/
def puff (blocks : List Block) : List UInt8 :=
  blocks.flatMap blockPuff

theorem puff_cons (block : Block) (blocks : List Block) :
    puff (block :: blocks) = blockPuff block ++ puff blocks :=
  List.flatMap_cons

/-! ## Runs -/

theorem runs_nil : runs [] = [] := by
  rw [runs]
  rfl

theorem runs_of_le {literals : List UInt8} (some : literals ≠ [])
    (room : literals.length ≤ maxRun) : runs literals = [.run literals] := by
  have positive : literals.length ≠ 0 := by
    rwa [ne_eq, List.length_eq_zero_iff]
  rw [runs, if_neg positive, List.take_of_length_le room, List.drop_of_length_le room, runs_nil]

theorem runs_full {literals : List UInt8} (full : literals.length = maxRun)
    (more : List UInt8) : runs (literals ++ more) = .run literals :: runs more := by
  have positive : (literals ++ more).length ≠ 0 := by
    rw [List.length_append, full, maxRun]
    omega
  rw [runs, if_neg positive, ← full, List.take_left, List.drop_left]

theorem pieces_full_append {literals : List UInt8} (full : literals.length = maxRun)
    (more : List UInt8) (tokens : List Token) :
    pieces (literals ++ more) tokens = .run literals :: pieces more tokens := by
  induction tokens generalizing more with
  | nil => rw [pieces, pieces, runs_full full]
  | cons token tokens ih =>
      cases token with
      | literal byte =>
          rw [pieces, pieces, List.append_assoc]
          exact ih _
      | reference length distance irregular =>
          rw [pieces, pieces, runs_full full, List.cons_append]

theorem pieces_full {literals : List UInt8} (full : literals.length = maxRun)
    (tokens : List Token) : pieces literals tokens = .run literals :: pieces [] tokens := by
  have whole := pieces_full_append full [] tokens
  rwa [List.append_nil] at whole

/-! ## Sinks -/

namespace Sink

theorem append_append (sink : Sink) (first second : Bytes) :
    (sink.append first).append second = sink.append (first ++ second) := by
  rcases sink with ⟨_ | buffer, written, waiting⟩
  · simp [append, Nat.add_assoc]
  · simp [append, Nat.add_assoc]

theorem append_empty (sink : Sink) : sink.append #[] = sink := by
  rcases sink with ⟨_ | buffer, written, waiting⟩
  · rfl
  · simp [append]

theorem output_append {sink : Sink} {buffer : Bytes} (appends : sink.output = some buffer)
    (bytes : Bytes) : (sink.append bytes).output = some (buffer ++ bytes) := by
  rcases sink with ⟨_ | old, written, waiting⟩
  · cases appends
  · cases appends
    rfl

theorem flush_of_nothing {sink : Sink} (nothing : sink.waiting = #[]) : sink.flush = sink := by
  rw [flush, if_pos (by rw [nothing]; rfl)]

/-- The sink without its waiting literals. -/
def emptied (sink : Sink) : Sink :=
  { sink with waiting := #[] }

theorem emptied_of_nothing {sink : Sink} (nothing : sink.waiting = #[]) :
    sink.emptied = sink := by
  rw [emptied, ← nothing]

theorem flush_of_waiting {sink : Sink} (room : sink.waiting.size ≤ maxRun) :
    sink.flush = sink.emptied.append (piecesPuff (runs sink.waiting.toList)).toArray := by
  rcases sink with ⟨output, written, ⟨_ | ⟨byte, literals⟩⟩⟩
  · rw [flush_of_nothing rfl, runs_nil]
    exact (append_empty _).symm
  · rw [runs_of_le (List.cons_ne_nil _ _) room]
    simp [flush, emptied, piecesPuff, Piece.bytes, literalRun]

theorem insertLiteral_eq (sink : Sink) (byte : UInt8) :
    sink.insertLiteral byte =
      if (sink.waiting.push byte).size = maxRun then
        ({ sink with waiting := sink.waiting.push byte } : Sink).flush
      else
        { sink with waiting := sink.waiting.push byte } :=
  rfl

theorem insert_of_other {sink : Sink} {element : Element}
    (other : ∀ byte, element ≠ .token (.literal byte)) :
    sink.insert element = sink.flush.append (record element) := by
  unfold insert
  split
  · rename_i byte
    exact absurd rfl (other byte)
  · rfl

@[simp]
theorem waiting_emptied (sink : Sink) : sink.emptied.waiting = #[] :=
  rfl

theorem flush_of_full {sink : Sink} (full : sink.waiting.size = maxRun) :
    sink.flush = sink.emptied.append (Piece.run sink.waiting.toList).bytes.toArray := by
  have nonempty : sink.waiting.toList ≠ [] := by
    intro nothing
    rw [← Array.length_toList, nothing, List.length_nil, maxRun] at full
    cases full
  rw [flush_of_waiting (Nat.le_of_eq full), runs_of_le nonempty (Nat.le_of_eq full), piecesPuff,
    List.flatMap_cons, List.flatMap_nil, List.append_nil]

/-- Tokens reach the output in pieces, once the last literals are written. -/
theorem flush_insertTokens {sink : Sink} (room : sink.waiting.size < maxRun)
    (tokens : List Token) :
    ((tokens.map Element.token).foldl insert sink).flush =
      sink.emptied.append (piecesPuff (pieces sink.waiting.toList tokens)).toArray := by
  induction tokens generalizing sink with
  | nil =>
      rw [pieces]
      exact flush_of_waiting (Nat.le_of_lt room)
  | cons token tokens ih =>
      rw [List.map_cons, List.foldl_cons]
      cases token with
      | literal byte =>
          rw [pieces, ← Array.toList_push]
          change ((tokens.map Element.token).foldl insert (sink.insertLiteral byte)).flush = _
          rw [insertLiteral_eq]
          by_cases full : (sink.waiting.push byte).size = maxRun
          · have run : ({ sink with waiting := sink.waiting.push byte } : Sink).flush =
                sink.emptied.append (Piece.run (sink.waiting.push byte).toList).bytes.toArray :=
              flush_of_full full
            rw [if_pos full, run, ih (by simp [maxRun]), pieces_full full,
              emptied_of_nothing (by simp), append_append, waiting_append, waiting_emptied,
              List.append_toArray, piecesPuff, piecesPuff, List.flatMap_cons]
          · rw [if_neg full]
            have room : (sink.waiting.push byte).size < maxRun := by
              rw [Array.size_push] at full ⊢
              omega
            exact ih room
      | reference length distance irregular =>
          rw [insert_of_other (by simp), ih (by simp [maxRun]), pieces,
            flush_of_waiting (Nat.le_of_lt room), emptied_of_nothing (by simp), append_append,
            append_append]
          simp [record, Piece.bytes, piecesPuff]

theorem insertTokens {sink : Sink} (nothing : sink.waiting = #[]) (tokens : List Token) :
    (tokens.map Element.token ++ [Element.endOfBlock]).foldl insert sink =
      sink.append (tokensPuff tokens).toArray := by
  have room : sink.waiting.size < maxRun := by simp [nothing, maxRun]
  rw [List.foldl_append, List.foldl_cons, List.foldl_nil, insert_of_other (by simp),
    flush_insertTokens room, emptied_of_nothing nothing, nothing, append_append]
  simp [record, tokensPuff]

theorem waiting_append_of_nothing {sink : Sink} (nothing : sink.waiting = #[]) (bytes : Bytes) :
    (sink.append bytes).waiting = #[] := by
  rw [waiting_append, nothing]

theorem insert_of_nothing {sink : Sink} (nothing : sink.waiting = #[]) {element : Element}
    (other : ∀ byte, element ≠ .token (.literal byte)) :
    sink.insert element = sink.append (record element) := by
  rw [insert_of_other other, flush_of_nothing nothing]

theorem insertContent {sink : Sink} (nothing : sink.waiting = #[]) (content : Content) :
    content.elements.foldl insert sink = sink.append (contentPuff content).toArray := by
  cases content with
  | stored padding bytes =>
      rw [Content.elements, List.foldl_cons, List.foldl_nil,
        insert_of_nothing nothing (by simp)]
      apply congrArg
      apply Array.ext'
      simp [record, contentPuff]
  | fixed tokens => exact insertTokens nothing tokens
  | dynamic header tokens =>
      rw [Content.elements, List.foldl_cons, insert_of_nothing nothing (by simp),
        insertTokens (waiting_append_of_nothing nothing _), append_append]
      simp [record, contentPuff]

/-- A block leaves nothing waiting, so the blocks after it do not depend on it. -/
theorem insertBlock {sink : Sink} (nothing : sink.waiting = #[]) (block : Block) :
    block.elements.foldl insert sink = sink.append (blockPuff block).toArray := by
  rw [Block.elements, List.cons_append, List.foldl_cons, List.foldl_append,
    insert_of_nothing nothing (by simp),
    insertContent (waiting_append_of_nothing nothing _), append_append]
  cases final : block.finalPadding with
  | none => simp [record, blockPuff, headerByte, final]
  | some padding =>
      rw [Option.map_some, Option.toList_some, List.foldl_cons, List.foldl_nil,
        insert_of_nothing (waiting_append_of_nothing nothing _) (by simp),
        append_append]
      simp [record, blockPuff, headerByte, final]

/-- What a sink appends when it gets the elements of blocks is their puff. -/
theorem insertAll_elements {sink : Sink} (nothing : sink.waiting = #[]) (blocks : List Block) :
    sink.insertAll (blocks.flatMap Block.elements).toArray = sink.append (puff blocks).toArray := by
  rw [insertAll, List.foldl_toArray]
  induction blocks generalizing sink with
  | nil => exact (append_empty sink).symm
  | cons block blocks ih =>
      rw [List.flatMap_cons, List.foldl_append, insertBlock nothing,
        ih (waiting_append_of_nothing nothing _), append_append, List.append_toArray, puff_cons]

end Sink

end DeflateAtlas.Puff
