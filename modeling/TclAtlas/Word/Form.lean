import TclAtlas.Text.Basic

/-!
# Word/Form — the shapes a word can have

* `unwrap` takes one layer of braces or quotes off a word;
* `isIdentifier` and `isSymbolName` are the two shapes of names: letters, digits and underscores not
  starting with a digit, and letters, digits, underscores, colons and dots in any order;
* `identifier?` reads a word as a key: its unwrapped text when that is an identifier.

Letters and digits are those of ASCII.
-/

namespace TclAtlas

namespace Text

/-- The text between its first and last characters when these are `opening` and `closing`. -/
def between? (opening closing : Char) : Text → Option Text
  | [] => none
  | c :: t => if c = opening ∧ t.getLast? = some closing then some t.dropLast else none

/-- **A word without one layer of wrapping** in braces or in quotes, if it has one. -/
def unwrap (w : Text) : Text :=
  ((between? '{' '}' w).or (between? '"' '"' w)).getD w

/-- A character that may start an identifier. -/
def isNameStart (c : Char) : Bool := c.isAlpha || c == '_'

/-- A character of an identifier. -/
def isNameChar (c : Char) : Bool := c.isAlphanum || c == '_'

/-- A character of a possibly qualified name. -/
def isSymbolChar (c : Char) : Bool := isNameChar c || c == ':' || c == '.'

/-- **An identifier**: a letter or underscore, then letters, digits and underscores. -/
def isIdentifier : Text → Bool
  | [] => false
  | c :: t => isNameStart c && t.all isNameChar

/-- **The name of a procedure or variable**: at least one letter, digit, underscore, colon or
dot. -/
def isSymbolName (t : Text) : Bool := !t.isEmpty && t.all isSymbolChar

/-- A word read as an identifier, its wrapping taken off. -/
def identifier? (w : Text) : Option Text :=
  if isIdentifier (unwrap w) then some (unwrap w) else none

theorem isIdentifier_of_identifier? {w k : Text} (h : identifier? w = some k) :
    isIdentifier k = true := by
  unfold identifier? at h
  split at h <;> simp_all

end Text

end TclAtlas
