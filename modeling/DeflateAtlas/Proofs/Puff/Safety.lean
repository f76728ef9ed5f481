import DeflateAtlas.Proofs.BitSource.Reachable
import DeflateAtlas.Proofs.Deflate.Guarded
import DeflateAtlas.Proofs.Puff.Calls

/-!
# The encoder is safe on any data

Whatever the data, the place in it and the state of the sink, the encoder relies on
nothing that does not hold: with a demand at every index, difference and narrowing it
does the same, however such a demand would fail.  It ends well, or fails because the
data is corrupt or ends early.  What it has written by then are elements that a block
can have, and all their numbers fit where they are written.
-/

namespace DeflateAtlas

open Deflate Puff

namespace Guarded

variable (fault : Failure)

/-! ## Writing with demands -/

/-- A number that is written where only those below a limit can be. -/
def below (limit : Nat) (number : Int) : Except Failure Nat := do
  demand fault (0 ≤ number ∧ number < limit)
  return number.toNat

/-- The record of a run of literals. -/
def literalRun (literals : Bytes) : Except Failure Bytes := do
  let number ← below fault 256 (literals.size - 1)
  return #[number.toUInt8] ++ literals

/-- The record of one entry of a dynamic table. -/
def entryRecord : LengthEntry → Except Failure (List UInt8)
  | .single length => do
      let length ← below fault 256 length
      return [length.toUInt8]
  | .repeatPrevious count => do
      let count ← below fault 256 count
      return [16, count.toUInt8]
  | .fewZeros count => do
      let count ← below fault 256 count
      return [17, count.toUInt8]
  | .manyZeros count => do
      let count ← below fault 256 count
      return [18, count.toUInt8]

/-- The record of a dynamic table; at most as many lengths are written as there are symbols. -/
def tableRecord (header : DynamicHeader) : Except Failure (List UInt8) := do
  let literals ← below fault 256 (header.literalCount - 257)
  let distances ← below fault 256 (header.distanceCount - 1)
  let sent ← below fault 256 (header.sentLengths.length - 4)
  demand fault (header.sentLengths.length ≤ codeLengthOrder.length)
  let sentLengths ← header.sentLengths.mapM fun (length : Nat) => below fault 256 length
  let entries ← header.entries.mapM (entryRecord fault)
  return [literals.toUInt8, distances.toUInt8, sent.toUInt8] ++ sentLengths.map Nat.toUInt8 ++
    entries.flatten

/-- The record of an element. -/
def record : Element → Except Failure Bytes
  | .header kind last => do
      let first ← below fault 256 (kind.number * 64 + last.toNat * 32)
      return #[first.toUInt8]
  | .stored padding bytes => do
      let size ← below fault 65536 bytes.size
      return #[padding] ++ toLittleEndian 2 size ++ bytes
  | .table header => do
      let bytes ← tableRecord fault header
      return bytes.toArray
  | .token (.literal byte) => literalRun fault #[byte]
  | .token (.reference length distance irregular) => do
      demand fault (minMatch ≤ length ∧ length ≤ maxMatch)
      demand fault (1 ≤ distance ∧ distance ≤ 32768)
      let length ← below fault 256 (length - minMatch)
      let distance ← below fault 65536 (distance - 1)
      return #[referenceMarker irregular, length.toUInt8] ++ bigEndian16 distance
  | .endOfBlock => return #[endOfBlockMarker]
  | .finalPadding padding => return #[padding]

/-- Write the waiting literals as a run. -/
def flush (sink : Sink) : Except Failure Sink :=
  if sink.waiting.isEmpty then
    return sink
  else do
    let run ← literalRun fault sink.waiting
    return { sink with waiting := #[] }.append run

/-- Add an element. -/
def insert (sink : Sink) : Element → Except Failure Sink
  | .token (.literal byte) =>
      let literals := sink.waiting.push byte
      if literals.size = maxRun then
        flush fault { sink with waiting := literals }
      else
        return { sink with waiting := literals }
  | element => do
      let emptied ← flush fault sink
      let bytes ← record fault element
      return emptied.append bytes

/-- Add the elements that a parse has seen, and write the waiting literals if it ended well. -/
def insertParsed (sink : Sink) (result : Except Failure Unit) (elements : Array Element) :
    Except Failure Sink := do
  let inserted ← elements.toList.foldlM (insert fault) sink
  match result with
  | .ok () => flush fault inserted
  | .error _ => return inserted

/-- Take deflate blocks from a source and write their puff. -/
def encode (source : BitSource) (sink : Sink) : Transformed :=
  let ⟨result, blocks, transcript⟩ := parse fault source
  let blockExtents := blocks.toList.map (·.extent)
  let log := blocks.toList.map (·.event)
  match insertParsed fault sink result transcript.elements with
  | .ok sink => { result, source := transcript.source, sink, blocks := blockExtents, log }
  | .error failure =>
      { result := .error failure, source := transcript.source, sink, blocks := blockExtents, log }

/-! ## Their demands are met -/

variable {fault}

theorem below_eq {limit value : Nat} {number : Int} (same : number = value)
    (small : value < limit) : below fault limit number = .ok value := by
  rw [below, demand_of ⟨by omega, by omega⟩, same, Int.toNat_natCast]
  rfl

theorem literalRun_eq {literals : Bytes} (some : literals ≠ #[]) (few : literals.size ≤ maxRun) :
    literalRun fault literals = .ok (Puff.literalRun literals) := by
  have positive : 0 < literals.size := Array.size_pos_iff.mpr some
  have number : (literals.size - 1 : Int) = (literals.size - 1 : Nat) := by omega
  simp only [maxRun] at few
  rw [literalRun, below_eq number (by omega)]
  rfl

theorem entryRecord_eq {entry : LengthEntry} (valid : entry.Valid) :
    entryRecord fault entry = .ok (Puff.entryRecord entry) := by
  cases entry with
  | single length =>
      have small : length ≤ 15 := valid
      rw [entryRecord, below_eq rfl (by omega)]
      rfl
  | repeatPrevious count | fewZeros count | manyZeros count =>
      have bounds := valid.count_le
      simp only [LengthEntry.count] at bounds
      rw [entryRecord, below_eq rfl (by omega)]
      rfl

theorem tableRecord_eq {header : DynamicHeader} (valid : header.Valid) :
    tableRecord fault header = .ok (Puff.tableRecord header) := by
  obtain ⟨literalsLow, literalsHigh⟩ := valid.literals
  obtain ⟨distancesLow, distancesHigh⟩ := valid.distances
  obtain ⟨sentLow, sentHigh⟩ := valid.sent
  have literals : (header.literalCount - 257 : Int) = (header.literalCount - 257 : Nat) := by omega
  have distances : (header.distanceCount - 1 : Int) = (header.distanceCount - 1 : Nat) := by omega
  have sent : (header.sentLengths.length - 4 : Int) = (header.sentLengths.length - 4 : Nat) := by
    omega
  have room : header.sentLengths.length ≤ codeLengthOrder.length := sentHigh
  have lengths : header.sentLengths.mapM (fun (length : Nat) => below fault 256 length) =
      .ok header.sentLengths := by
    refine (mapM_of_ok fun length member => ?_).trans (congrArg Except.ok (List.map_id _))
    have small : length < 256 := Nat.lt_trans (valid.sentLengths length member) (by decide)
    exact below_eq rfl small
  have entries : header.entries.mapM (entryRecord fault) =
      .ok (header.entries.map Puff.entryRecord) :=
    mapM_of_ok fun entry member => entryRecord_eq (valid.entries.1 entry member).1
  rw [tableRecord, below_eq literals (by omega), below_eq distances (by omega),
    below_eq sent (by omega), demand_of room, lengths, entries, Puff.tableRecord,
    List.flatMap_def]
  rfl

/-- What a record says of a valid element fits into the record. -/
theorem record_eq {element : Element} (valid : element.Valid) :
    record fault element = .ok (Puff.record element) := by
  cases element with
  | header kind last =>
      have small : kind.number * 64 + last.toNat * 32 < 256 := by
        cases kind <;> cases last <;> decide
      rw [record, below_eq (by simp) small]
      rfl
  | stored padding bytes =>
      have small : bytes.size ≤ 65535 := valid
      rw [record, below_eq rfl (by omega)]
      rfl
  | table header =>
      rw [record, tableRecord_eq valid]
      rfl
  | token token =>
      cases token with
      | literal byte =>
          have few : (#[byte] : Bytes).size ≤ maxRun := Nat.le_of_lt (by decide : 1 < maxRun)
          exact literalRun_eq (by simp) few
      | reference length distance irregular =>
          obtain ⟨low, high, near, far, -⟩ := valid
          have short : (length - minMatch : Int) = (length - minMatch : Nat) := by omega
          have back : (distance - 1 : Int) = (distance - 1 : Nat) := by omega
          have fits : length - minMatch < 256 := by
            simp only [minMatch, maxMatch] at high ⊢
            omega
          rw [record, demand_of ⟨low, high⟩, demand_of ⟨near, far⟩, pure_bind, pure_bind,
            below_eq short fits, below_eq back (by omega)]
          rfl
  | endOfBlock => rfl
  | finalPadding padding => rfl

theorem flush_eq {sink : Sink} (few : sink.waiting.size ≤ maxRun) :
    flush fault sink = .ok sink.flush := by
  unfold flush Sink.flush
  split
  · rfl
  · rename_i waiting
    rw [literalRun_eq (by simpa using waiting) few]
    rfl

/-- Only elements other than literals have a record of their own. -/
theorem insert_of_other {sink : Sink} {element : Element}
    (other : ∀ byte, element ≠ .token (.literal byte)) :
    insert fault sink element = (do
      let emptied ← flush fault sink
      let bytes ← record fault element
      return emptied.append bytes) := by
  cases element with
  | token token =>
      cases token with
      | literal byte => exact absurd rfl (other byte)
      | reference length distance irregular => rfl
  | _ => rfl

theorem insert_eq {sink : Sink} (room : sink.HasRoom) {element : Element} (valid : element.Valid) :
    insert fault sink element = .ok (sink.insert element) := by
  rw [Sink.HasRoom] at room
  by_cases literal : ∃ byte, element = .token (.literal byte)
  · obtain ⟨byte, rfl⟩ := literal
    change insert fault sink _ = .ok (sink.insertLiteral byte)
    rw [insert, Sink.insertLiteral_eq]
    split
    · rename_i full
      exact flush_eq (Nat.le_of_eq full)
    · rfl
  · have other := not_exists.mp literal
    rw [insert_of_other other, Sink.insert_of_other other, flush_eq (Nat.le_of_lt room),
      record_eq valid]
    rfl

theorem insertParsed_eq {sink : Sink} (room : sink.HasRoom) (result : Except Failure Unit)
    {elements : Array Element} (valid : ∀ element ∈ elements, element.Valid) :
    insertParsed fault sink result elements =
      .ok (match result with
        | .ok () => (sink.insertAll elements).flush
        | .error _ => sink.insertAll elements) := by
  have steps : ∀ before : Sink, before.HasRoom → ∀ element ∈ elements.toList,
      insert fault before element = .ok (before.insert element) ∧
        (before.insert element).HasRoom := by
    intro before room element member
    exact ⟨insert_eq room (valid element (Array.mem_toList_iff.mp member)), room.insert element⟩
  obtain ⟨inserted, stillRoom⟩ := foldlM_of_ok Sink.HasRoom steps room
  rw [Array.foldl_toList] at inserted stillRoom
  rw [insertParsed, inserted]
  cases result with
  | ok _ => exact flush_eq (Nat.le_of_lt stillRoom)
  | error failure => rfl

theorem encode_eq {source : BitSource} (wellFormed : source.WellFormed) {sink : Sink}
    (room : sink.HasRoom) : encode fault source sink = PuffEncoder.encode source sink := by
  obtain ⟨same, sound⟩ := @safe_parse fault source wellFormed
  rw [encode, PuffEncoder.encode, same]
  generalize Deflate.parse source = parsed at sound
  obtain ⟨result, blocks, transcript⟩ := parsed
  cases result with
  | ok _ => simp only [insertParsed_eq room _ sound.elements]
  | error failure => simp only [insertParsed_eq room _ sound.elements]

end Guarded

/-- Some calls bring a new sink to its state. -/
def Puff.Sink.Reachable (sink : Sink) : Prop :=
  ∃ calls : List (Call Element),
    sink = Sink.measuring.serve calls ∨ ∃ buffer, sink = (Sink.appending buffer).serve calls

theorem Puff.Sink.Reachable.hasRoom {sink : Sink} (reachable : sink.Reachable) : sink.HasRoom := by
  obtain ⟨calls, rfl | ⟨buffer, rfl⟩⟩ := reachable
  · exact (hasRoom_of_nothing rfl).serve calls
  · exact (hasRoom_of_nothing rfl).serve calls

/-- From any place of a source and with any state of a sink, the encoder does what it would do if
every index, difference and narrowing had been tested, whatever failure such a test would cause;
this includes that the fixed codes can be built and that every pass of its loops takes bits.  It
fails only because the data is corrupt or ends early, and never for a symbol outside the code
length alphabet.  What it writes, whether or not it fails then, are valid elements: references
of 3 to 258 bytes at distances of 1 to 32768, stored blocks of at most 65535 bytes and tables that
can be sent. -/
theorem PuffEncoder.encode_safe {source : BitSource} {sink : Sink} (place : source.Reachable)
    (state : sink.Reachable) :
    (∀ fault, Guarded.encode fault source sink = encode source sink) ∧
      (∀ failure, (encode source sink).result = .error failure →
        (failure.kind = .invalidDeflate ∨ failure.kind = .shortRead) ∧
          failure ≠ .invalidCodeLengthSymbol) ∧
      (∀ element ∈ (Deflate.parse source).transcript.elements, element.Valid) ∧
      ∃ codes, BlockCodes.fixed = .ok codes := by
  have wellFormed := place.wellFormed
  obtain ⟨-, sound⟩ := @Guarded.safe_parse .endOfBits source wellFormed
  exact ⟨fun fault => Guarded.encode_eq wellFormed state.hasRoom, sound.result, sound.elements,
    _, BlockCodes.fixed_eq⟩

/-- Five bits into its data a source meets a block of the reserved type, while a literal waits in
the sink. -/
theorem PuffEncoder.encode_safe_reserved :
    let source := (BitSource.Operation.getBits 5).run (BitSource.ofBytes #[0xe0, 0])
    let sink := Sink.measuring.serve [.insert (.token (.literal 97))]
    source.Reachable ∧ sink.Reachable ∧
      (encode source sink).result = .error .invalidBlockType ∧
      (∀ fault, Guarded.encode fault source sink = encode source sink) ∧
      (∀ element ∈ (Deflate.parse source).transcript.elements, element.Valid) := by
  have place := (BitSource.reachable_ofBytes #[0xe0, 0]).run (.getBits 5)
  have state : (Sink.measuring.serve [.insert (.token (.literal 97))]).Reachable := ⟨_, .inl rfl⟩
  obtain ⟨same, -, valid, -⟩ := encode_safe place state
  exact ⟨place, state, by cbv, same, valid⟩

end DeflateAtlas
