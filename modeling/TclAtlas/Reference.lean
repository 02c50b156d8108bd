import TclAtlas.Token
import TclAtlas.Word.Form

/-!
# Reference — variable substitutions in a line

A dollar sign with a name after it substitutes the variable of that name.  The name may start with a
root anchor; it goes on for as long as characters of names follow.  An escaped dollar sign belongs
to an escape lexeme, so only the runs of ordinary characters are searched.
-/

namespace TclAtlas

/-- **A variable substitution**: the name without the dollar sign, and the byte position of the
dollar sign. -/
structure Reference where
  name : Text
  start : Nat
  deriving DecidableEq, Repr

namespace Reference

/-- The byte position after the name. -/
def finish (r : Reference) : Nat := r.start + 1 + Text.byteLength r.name

/-- The unanchored name at the start of a text; empty when none starts there. -/
def plainName : Text → Text
  | [] => []
  | c :: t => if Text.isNameStart c then c :: t.takeWhile Text.isSymbolChar else []

/-- The name at the start of a text, anchor included; empty when none starts there. -/
def leadingName : Text → Text
  | ':' :: ':' :: t =>
    match plainName t with
    | [] => []
    | n => ':' :: ':' :: n
  | t => plainName t

/-- The substitutions in a run of ordinary characters that starts at a byte position.  The search
goes on behind the name of the one that is found. -/
def inRun (start : Nat) : Text → List Reference
  | [] => []
  | c :: t =>
    if c = '$' then
      let name := leadingName t
      let later := inRun (start + 1 + Text.byteLength name) (t.drop name.length)
      if name = [] then later else ⟨name, start⟩ :: later
    else inRun (start + c.utf8Size) t
termination_by t => t.length
decreasing_by
  · rw [List.length_drop, List.length_cons]
    exact Nat.lt_succ_of_le (Nat.sub_le ..)
  · exact Nat.lt_succ_self t.length

end Reference

/-- **The variable substitutions of a line**, in order. -/
def references (line : Text) : List Reference :=
  (tokenize line).flatMap fun t => if t.kind = .text then Reference.inRun t.start t.text else []

end TclAtlas
