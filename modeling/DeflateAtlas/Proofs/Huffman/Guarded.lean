import DeflateAtlas.Proofs.BitSource.Guarded
import DeflateAtlas.Proofs.Huffman.Canonical

/-!
# Decoding with nothing taken for granted

Here tables are built and symbols decoded with demands: every byte at which a word is
entered is one, a shortcut takes no more bits than are loaded, and the place of a
symbol, computed from signed numbers bit by bit, lies among the symbols.  The last of
these rests on the code: the bits that have been read always lie beyond all words of
their length, until they are one.
-/

namespace DeflateAtlas

namespace Guarded

open BitSource (Action Safe)
open Huffman

variable (fault : Failure)

/-! ## The operations -/

/-- Enter a word for every byte that begins with it. -/
def enter (shortcuts : Vector Shortcut 256) (symbol : Nat) (word : CodeWord) :
    Except Failure (Vector Shortcut 256) :=
  if word.length = 0 ∨ 8 < word.length then
    return shortcuts
  else
    (List.range (1 <<< (8 - word.length))).foldlM
      (fun entered suffix => do
        let index := word.reversed + suffix <<< word.length
        demand fault (index < 256)
        return entered.setIfInBounds index ⟨word.length, symbol⟩)
      shortcuts

/-- The shortcuts of a code. -/
def shortcutsOf (lengths : List Nat) : Except Failure (Vector Shortcut 256) :=
  (codeWords lengths).zipIdx.foldlM (fun entered (word, symbol) => enter fault entered symbol word)
    (Vector.replicate 256 ⟨0, 0⟩)

/-- The decoding table of a code; there is a first word for every length up to 15. -/
def ofLengths (lengths : List Nat) (allowIncomplete : Bool) : Except Failure DecodingTable :=
  if lengths.any (maxLength < ·) then
    .error .codeLengthTooLong
  else
    match roomLeft (lengthCounts lengths) 1 with
    | none => .error .overSubscribedCode
    | some room =>
        if 0 < room ∧ ¬ (allowIncomplete ∧ DecodingTable.isDegenerate lengths) then
          .error .incompleteCode
        else do
          demand fault (∀ length ∈ lengths, length ≤ maxLength)
          let shortcuts ← shortcutsOf fault lengths
          return { counts := lengthCounts lengths
                   symbols := (orderedSymbols lengths).toArray
                   shortcuts }

/-- Decode bit by bit, with signed numbers. -/
def walk (symbols : Array Nat) : (counts : List Nat) → (code first index : Int) → Action Nat
  | [], _, _, _ => throw .unassignedCode
  | count :: counts, code, first, index => do
      let bit ← getBits fault 1
      let word := code + bit
      if word - count < first then
        let place := index + (word - first)
        demand fault (0 ≤ place ∧ place < symbols.size)
        return symbols.getD place.toNat 0
      else
        walk symbols counts (2 * word) (2 * (first + count)) (index + count)

/-- Decode a symbol bit by bit. -/
def decodeSlow (table : DecodingTable) : Action Nat :=
  walk fault table.symbols table.counts 0 0 0

/-- Decode a symbol, at a single look if possible. -/
def decode (table : DecodingTable) : Action Nat := do
  modify (·.ensure 8)
  let filled ← get
  let found := table.shortcut filled.lowByte
  if 8 ≤ filled.count ∧ found.length ≠ 0 then
    discard fault found.length
    return found.symbol
  else
    decodeSlow fault table

/-! ## Their demands are met -/

variable {fault}

/-- The words of at most eight bits begin bytes. -/
theorem enter_eq (shortcuts : Vector Shortcut 256) (symbol : Nat) (word : CodeWord) :
    enter fault shortcuts symbol word = .ok (DecodingTable.enter shortcuts symbol word) := by
  unfold enter DecodingTable.enter
  split
  · rfl
  · rename_i entered
    refine (foldlM_of_ok (fun _ => True) (fun before _ suffix member => ⟨?_, trivial⟩) trivial).1
    have small := word.reversed_lt
    have index : word.reversed + suffix <<< word.length < 256 := by
      rw [List.mem_range, Nat.one_shiftLeft] at member
      rw [Nat.shiftLeft_eq]
      calc
        word.reversed + suffix * 2 ^ word.length <
            2 ^ word.length + suffix * 2 ^ word.length := Nat.add_lt_add_right small _
        _ = (suffix + 1) * 2 ^ word.length := by rw [Nat.add_mul, Nat.one_mul, Nat.add_comm]
        _ ≤ 2 ^ (8 - word.length) * 2 ^ word.length := Nat.mul_le_mul_right _ member
        _ = 256 := by rw [← Nat.pow_add, Nat.sub_add_cancel (by omega)]
    simp only [demand_of index]
    rfl

theorem shortcutsOf_eq (lengths : List Nat) :
    shortcutsOf fault lengths = .ok (DecodingTable.shortcutsOf lengths) :=
  (foldlM_of_ok (fun _ => True)
    (fun before _ entry _ => ⟨enter_eq before entry.2 entry.1, trivial⟩) trivial).1

theorem ofLengths_eq (lengths : List Nat) (allowIncomplete : Bool) :
    ofLengths fault lengths allowIncomplete = DecodingTable.ofLengths lengths allowIncomplete := by
  unfold ofLengths DecodingTable.ofLengths
  by_cases long : lengths.any (maxLength < ·)
  · rw [if_pos long, if_pos long]
  have short : ∀ length ∈ lengths, length ≤ maxLength := by simpa using long
  rw [if_neg long, if_neg long, demand_of short, pure_bind, shortcutsOf_eq]
  rfl

theorem expected_ofLengths {lengths : List Nat} {allowIncomplete : Bool} {failure : Failure}
    (rejected : DecodingTable.ofLengths lengths allowIncomplete = .error failure) :
    failure.Expected := by
  unfold DecodingTable.ofLengths at rejected
  split at rejected
  · cases rejected
    decide
  split at rejected
  · cases rejected
    decide
  split at rejected
  · cases rejected
    decide
  · cases rejected

theorem shortcut_length_le {lengths : List Nat} {byte : UInt8}
    (resolves : ((DecodingTable.build lengths).shortcut byte).length ≠ 0) :
    ((DecodingTable.build lengths).shortcut byte).length ≤ 8 := by
  obtain ⟨-, begins, size⟩ := DecodingTable.shortcut_resolves resolves
  rw [size]
  simpa using begins.length_le

theorem getElem?_of_symbolAt {table : DecodingTable} {index symbol : Nat}
    (resolved : table.symbolAt index = pure symbol) : table.symbols[index]? = some symbol := by
  unfold DecodingTable.symbolAt at resolved
  cases listed : table.symbols[index]? with
  | none =>
      rw [listed] at resolved
      cases congrFun resolved (BitSource.ofBytes #[])
  | some other =>
      rw [listed] at resolved
      cases congrFun resolved (BitSource.ofBytes #[])
      rfl

/-- A step of a walk whose numbers are not negative before it; only the place of the symbol is
computed by a difference. -/
theorem walk_cons (symbols : Array Nat) (count : Nat) (counts : List Nat)
    (code first index : Nat) :
    walk fault symbols (count :: counts) code first index = (do
      let bit ← getBits fault 1
      if code + bit < first + count then
        let place := index + ((code + bit : Nat) - first : Int)
        demand fault (0 ≤ place ∧ place < symbols.size)
        return symbols.getD place.toNat 0
      else
        walk fault symbols counts (2 * (code + bit) : Nat) (2 * (first + count) : Nat)
          (index + count : Nat)) := by
  rw [walk]
  congr 1
  funext bit
  have ends : (code + bit - count : Int) < first ↔ code + bit < first + count := by omega
  simp only [ends, Nat.cast_mul, Nat.cast_add, Nat.cast_ofNat]

section Code

variable {lengths : List Nat} (fits : Fits lengths)
include fits

/-- From bits beyond all words of their length on, the place of a symbol is never negative and
never beyond the last symbol. -/
theorem safe_walkFrom {path : List Bool} {number : Nat} (whole : path.length + number = maxLength)
    (beyond : occupied lengths path.length ≤ codeValue path) :
    Safe (walk fault (DecodingTable.build lengths).symbols
        ((List.range' path.length number).map fun index => lengths.count (index + 1))
        (2 * codeValue path : Nat) (2 * occupied lengths path.length : Nat)
        (ranked lengths path.length : Nat))
      (DecodingTable.walkFrom lengths path number) (HasWord lengths) := by
  induction number generalizing path with
  | zero => exact Guards.throw fun _ _ => by decide
  | succ number ih =>
      rw [DecodingTable.walkFrom, List.range'_succ, List.map_cons, walk_cons]
      refine Guards.bind (safe_getBits (by decide)) fun bit small => ?_
      have grows := occupied_succ lengths path.length
      have further : (path ++ [bit.testBit 0]).length = path.length + 1 := by simp
      have value := codeValue_concat_testBit path small
      have first : 2 * occupied lengths path.length ≤ 2 * codeValue path + bit := by omega
      by_cases ends : 2 * codeValue path + bit <
          2 * occupied lengths path.length + lengths.count (path.length + 1)
      · obtain ⟨symbol, resolved, hasWord, -⟩ :=
          DecodingTable.exists_symbolAt fits further (by omega) (by omega) (by omega)
        rw [value] at resolved
        have found := getElem?_of_symbolAt resolved
        obtain ⟨inside, -⟩ := Array.getElem?_eq_some_iff.mp found
        simp only [ends, first, if_true, ← Nat.cast_sub first, ← Nat.cast_add,
          Int.toNat_natCast, resolved]
        refine Guards.demand ⟨Int.natCast_nonneg _, Int.ofNat_lt.mpr inside⟩ ?_
        rw [Array.getD_eq_getD_getElem?, found, Option.getD_some]
        exact Guards.pure hasWord
      · have still : occupied lengths (path ++ [bit.testBit 0]).length ≤
            codeValue (path ++ [bit.testBit 0]) := by
          rw [further]
          omega
        have walked := ih (by rw [further]; omega) still
        rw [DecodingTable.walkFrom, further, value, grows, ranked_succ] at walked
        simp only [ends, if_false]
        exact walked

theorem safe_decodeSlow :
    Safe (decodeSlow fault (DecodingTable.build lengths)) (DecodingTable.build lengths).decodeSlow
      (HasWord lengths) := by
  have walked := @safe_walkFrom fault lengths fits [] maxLength (Nat.zero_add _) (by simp)
  rw [← DecodingTable.decodeSlow_eq_walkFrom] at walked
  simpa [decodeSlow, DecodingTable.build, lengthCounts, codeValue, bitsValue, ranked,
    List.range_eq_range'] using walked

/-- A table decodes symbols that have words, and nothing else. -/
theorem safe_decode :
    Safe (decode fault (DecodingTable.build lengths)) (DecodingTable.build lengths).decode
      (HasWord lengths) := by
  apply Guards.intro
  · intro source wellFormed
    have filled := wellFormed.takes_ensure 8
    simp only [DecodingTable.decode]
    change (if 8 ≤ (source.ensure 8).count ∧ _ then _ else _ : Action Nat) (source.ensure 8) = _
    split
    · rename_i looked
      have short := shortcut_length_le looked.2
      exact bind_of_ok (discard_eq (Nat.le_trans short looked.1) (by omega))
    · exact (safe_decodeSlow fits).eq filled.wellFormed
  · intro source symbol after wellFormed ended
    obtain ⟨word, ⟨hasWord, -⟩, -, taken⟩ :=
      (DecodingTable.reads_decode fits).sound wellFormed ended
    exact ⟨hasWord, taken.wellFormed⟩
  · intro source failure after wellFormed failed
    rcases DecodingTable.decode_error fits wellFormed failed with ⟨rfl, -⟩ | ⟨rfl, -⟩
    · decide
    · decide

end Code

end Guarded

end DeflateAtlas
