import TclAtlas.Token

/-!
# Word — the words of a command line

A line is split into words at white space, except where the white space is **nested**: inside
braces, inside brackets or inside a quoted string.  So a braced list, a bracketed command and a
quoted string are each one word.  Unbalanced text is no error: the last word then runs to the end
of the line.

Within a quoted string braces and brackets do not count; a closing brace or bracket that closes
nothing has no effect.
-/

namespace TclAtlas

/-! ## Nesting -/

/-- **How deeply nested** a place in a line is. -/
structure Nesting where
  braces : Nat
  brackets : Nat
  quoted : Bool
  deriving DecidableEq, Repr

namespace Nesting

/-- The nesting at the start of a line: nothing is open. -/
def flat : Nesting := ⟨0, 0, false⟩

/-- Whether something is open. -/
def isOpen (n : Nesting) : Bool := n.quoted || n.braces != 0 || n.brackets != 0

/-- The nesting after a lexeme of the given kind. -/
def after (n : Nesting) : LexemeKind → Nesting
  | .quote => { n with quoted := !n.quoted }
  | .openBrace => if n.quoted then n else { n with braces := n.braces + 1 }
  | .closeBrace => if n.quoted then n else { n with braces := n.braces - 1 }
  | .openBracket => if n.quoted then n else { n with brackets := n.brackets + 1 }
  | .closeBracket => if n.quoted then n else { n with brackets := n.brackets - 1 }
  | _ => n

@[simp] theorem isOpen_flat : flat.isOpen = false := rfl

end Nesting

/-! ## Words -/

/-- **A word** of a line, with the byte position it starts at. -/
structure Word where
  text : Text
  start : Nat
  deriving DecidableEq, Repr

namespace Word

/-- The byte position after the word. -/
def finish (w : Word) : Nat := w.start + Text.byteLength w.text

/-- Whether the word starts with an opening brace. -/
def isBraced (w : Word) : Bool := w.text.head? == some '{'

/-- Whether the word starts with an opening bracket. -/
def isBracketed (w : Word) : Bool := w.text.head? == some '['

/-- The word read so far, if there is one, lengthened by a token. -/
def extend (w : Option Word) (t : Token) : Word :=
  match w with
  | none => ⟨t.text, t.start⟩
  | some w => ⟨w.text ++ t.text, w.start⟩

/-- The words of a line, given the word read so far, the nesting and the tokens still to come. -/
def gather (w : Option Word) (n : Nesting) : List Token → List Word
  | [] => w.toList
  | t :: ts =>
    if t.kind = .whitespace ∧ n.isOpen = false then w.toList ++ gather none n ts
    else gather (some (extend w t)) (n.after t.kind) ts

end Word

/-- **The words of a text.** -/
def splitWords (t : Text) : List Word := Word.gather none .flat (tokenize t)

end TclAtlas
