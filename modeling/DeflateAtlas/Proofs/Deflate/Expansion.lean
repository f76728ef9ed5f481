import DeflateAtlas.Proofs.Deflate.Spelling

/-!
# What deflate blocks stand for

A literal stands for itself and a reference for bytes that lie a distance before
the end of what there is so far, over and over if it is longer than that
distance.  What lies before the start counts as zeros.  The length of what
blocks stand for is known without expanding them.
-/

namespace DeflateAtlas.Deflate

/-- The byte at a distance before the end of some output. -/
def byteBefore (output : List UInt8) (distance : Nat) : UInt8 :=
  if output.length < distance then 0 else output.getD (output.length - distance) 0

/-- The bytes from a distance before the end of some output on, over and over. -/
def echo (distance length : Nat) (output : List UInt8) : List UInt8 :=
  (List.range length).map fun index => byteBefore output (distance - index % distance)

@[simp]
theorem length_echo (distance length : Nat) (output : List UInt8) :
    (echo distance length output).length = length := by
  simp [echo]

theorem byteBefore_concat (output : List UInt8) (byte : UInt8) (distance : Nat) :
    byteBefore (output ++ [byte]) (distance + 1) =
      if distance = 0 then byte else byteBefore output distance := by
  simp only [byteBefore, List.length_append, List.length_singleton, Nat.add_lt_add_iff_right,
    Nat.add_sub_add_right, List.getD_eq_getElem?_getD]
  by_cases last : distance = 0
  · simp [last]
  · rw [if_neg last]
    split
    · rfl
    · rw [List.getElem?_append_left (by omega)]

/-- An echo goes on as if its first byte had been there before. -/
theorem echo_succ {distance : Nat} (positive : 0 < distance) (length : Nat)
    (output : List UInt8) :
    echo distance (length + 1) output =
      byteBefore output distance ::
        echo distance length (output ++ [byteBefore output distance]) := by
  rw [echo, List.range_succ_eq_map, List.map_cons, List.map_map, Nat.zero_mod, Nat.sub_zero, echo]
  congr 1
  apply List.map_congr_left
  intro index _
  have inside := Nat.mod_lt index positive
  have back : distance - index % distance = distance - index % distance - 1 + 1 := by omega
  rw [Function.comp_apply, Nat.succ_eq_add_one, back, byteBefore_concat]
  by_cases wraps : index % distance + 1 = distance
  · have next : (index + 1) % distance = 0 := by
      rw [← Nat.mod_add_mod, wraps, Nat.mod_self]
    have first : distance - index % distance - 1 = 0 := by omega
    rw [next, first, if_pos rfl, Nat.sub_zero]
  · have next : (index + 1) % distance = index % distance + 1 := by
      rw [← Nat.mod_add_mod, Nat.mod_eq_of_lt (by omega)]
    rw [next, if_neg (by omega), Nat.sub_sub]

namespace Token

/-- The number of bytes a token stands for. -/
def size : Token → Nat
  | .literal _ => 1
  | .reference length _ _ => length

/-- Append what a token stands for. -/
def expandOnto (output : List UInt8) : Token → List UInt8
  | .literal byte => output ++ [byte]
  | .reference length distance _ => output ++ echo distance length output

theorem length_expandOnto (output : List UInt8) (token : Token) :
    (token.expandOnto output).length = output.length + token.size := by
  cases token with
  | literal byte => rw [expandOnto, List.length_append, size, List.length_singleton]
  | reference length distance irregular =>
      rw [expandOnto, List.length_append, length_echo, size]

end Token

namespace Content

/-- The number of bytes a content stands for. -/
def size : Content → Nat
  | .stored _ bytes => bytes.size
  | .fixed tokens | .dynamic _ tokens => (tokens.map Token.size).sum

/-- Append what a content stands for. -/
def expandOnto (output : List UInt8) : Content → List UInt8
  | .stored _ bytes => output ++ bytes.toList
  | .fixed tokens | .dynamic _ tokens => tokens.foldl Token.expandOnto output

theorem length_foldl_expandOnto (output : List UInt8) (tokens : List Token) :
    (tokens.foldl Token.expandOnto output).length =
      output.length + (tokens.map Token.size).sum := by
  induction tokens generalizing output with
  | nil => rfl
  | cons token tokens ih =>
      rw [List.foldl_cons, ih, Token.length_expandOnto, List.map_cons, List.sum_cons,
        Nat.add_assoc]

theorem length_expandOnto (output : List UInt8) (content : Content) :
    (content.expandOnto output).length = output.length + content.size := by
  cases content with
  | stored padding bytes => rw [expandOnto, List.length_append, size, ← Array.length_toList]
  | fixed tokens => exact length_foldl_expandOnto output tokens
  | dynamic header tokens => exact length_foldl_expandOnto output tokens

end Content

/-- Append what blocks stand for. -/
def expandOnto (output : List UInt8) (blocks : List Block) : List UInt8 :=
  blocks.foldl (fun output block => block.content.expandOnto output) output

/-- What blocks stand for. -/
def expand (blocks : List Block) : List UInt8 :=
  expandOnto [] blocks

theorem length_expandOnto (output : List UInt8) (blocks : List Block) :
    (expandOnto output blocks).length =
      output.length + (blocks.map (·.content.size)).sum := by
  induction blocks generalizing output with
  | nil => rfl
  | cons block blocks ih =>
      rw [expandOnto, List.foldl_cons, ← expandOnto, ih, Content.length_expandOnto,
        List.map_cons, List.sum_cons, Nat.add_assoc]

theorem length_expand (blocks : List Block) :
    (expand blocks).length = (blocks.map (·.content.size)).sum := by
  rw [expand, length_expandOnto, List.length_nil, Nat.zero_add]

end DeflateAtlas.Deflate
