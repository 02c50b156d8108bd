/-!
# Text/Basic — text as characters, positions as bytes, and lines

A **text** is a list of Unicode characters.  Positions in it are counted in bytes of its UTF-8
encoding, so a position is meaningful only on a character boundary:

* `byteLength_append` — byte lengths add up over concatenation;
* `dropBytes_byteLength_append` — dropping the bytes of a leading part leaves the remaining part.
-/

namespace TclAtlas

/-- **A text**: a sequence of Unicode characters. -/
abbrev Text := List Char

namespace Text

/-! ## Length in bytes -/

/-- The number of bytes a text takes in UTF-8. -/
def byteLength : Text → Nat
  | [] => 0
  | c :: t => c.utf8Size + byteLength t

@[simp] theorem byteLength_nil : byteLength [] = 0 := rfl

@[simp] theorem byteLength_cons (c : Char) (t : Text) :
    byteLength (c :: t) = c.utf8Size + byteLength t := rfl

@[simp] theorem byteLength_append : ∀ s t : Text,
    byteLength (s ++ t) = byteLength s + byteLength t
  | [], t => (Nat.zero_add (byteLength t)).symm
  | c :: s, t => by
    rw [List.cons_append, byteLength_cons, byteLength_cons, byteLength_append s t, Nat.add_assoc]

/-! ## Dropping a number of bytes -/

/-- The text from a byte position on.  A position inside a character counts as the one after it. -/
def dropBytes : Nat → Text → Text
  | _, [] => []
  | n, c :: t => if n = 0 then c :: t else dropBytes (n - c.utf8Size) t

@[simp] theorem dropBytes_zero (t : Text) : dropBytes 0 t = t := by cases t <;> simp [dropBytes]

/-- **Dropping a leading part by its byte length leaves the rest.** -/
@[simp] theorem dropBytes_byteLength_append :
    ∀ s t : Text, dropBytes (byteLength s) (s ++ t) = t
  | [], t => dropBytes_zero t
  | c :: s, t => by
    have hc : c.utf8Size + byteLength s ≠ 0 := by have := c.utf8Size_pos; omega
    rw [byteLength_cons, List.cons_append, dropBytes, if_neg hc, Nat.add_sub_cancel_left,
      dropBytes_byteLength_append s t]

/-! ## Lines

A line ends at a line feed; one carriage return directly before it belongs to the line's end.  A
carriage return anywhere else, also at the very end of the text, is part of its line.  After a final
line feed no further line begins. -/

/-- **The lines of a text**, without their ends. -/
def lines : Text → List Text
  | [] => []
  | '\r' :: '\n' :: t => [] :: lines t
  | '\n' :: t => [] :: lines t
  | c :: t =>
    match lines t with
    | [] => [[c]]
    | l :: ls => (c :: l) :: ls

/-! ## Order -/

/-- The order of texts by their characters' code points, which is also the order of their UTF-8
bytes. -/
def le (s t : Text) : Bool := !decide (t < s)

end Text

end TclAtlas
