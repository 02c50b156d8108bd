import TclAtlas.Text.Basic

/-!
# Token — the lexemes of a script

Lexing is coarse: it tells apart only the characters that matter for words and braces.  A text is
cut into **lexemes**:

* maximal runs of white space (space, tab, carriage return, line feed),
* maximal runs of ordinary characters,
* an escape: a backslash with the character after it, unless that is a line feed,
* and single characters: a backslash that escapes nothing, a quote, a brace, a bracket.

Nothing is lost: `lexemes_flatten` says the lexemes' texts concatenate to the text.  A **token** is
a lexeme with its byte position.
-/

namespace TclAtlas

/-- What a lexeme is. -/
inductive LexemeKind
  | whitespace
  /-- A backslash with the character it escapes. -/
  | escape
  /-- A backslash that escapes nothing: the last character, or before a line feed. -/
  | backslash
  | quote
  | openBrace
  | closeBrace
  | openBracket
  | closeBracket
  /-- A run of ordinary characters. -/
  | text
  deriving DecidableEq, Repr

namespace LexemeKind

/-- The kind a character has on its own. -/
def ofChar (c : Char) : LexemeKind :=
  if c = ' ' ∨ c = '\t' ∨ c = '\r' ∨ c = '\n' then .whitespace
  else if c = '\\' then .backslash
  else if c = '"' then .quote
  else if c = '{' then .openBrace
  else if c = '}' then .closeBrace
  else if c = '[' then .openBracket
  else if c = ']' then .closeBracket
  else .text

/-- Whether characters of this kind join into runs. -/
def runs : LexemeKind → Bool
  | .whitespace | .text => true
  | _ => false

end LexemeKind

/-- **A lexeme**: a smallest unit of script text. -/
structure Lexeme where
  kind : LexemeKind
  text : Text
  deriving DecidableEq, Repr

/-! ## Cutting a text into lexemes -/

namespace Lexeme

/-- Put a character of kind `k` in front of the lexemes: it lengthens the first of them when both
belong to one run, and is a lexeme of its own otherwise. -/
def attach (k : LexemeKind) (c : Char) : List Lexeme → List Lexeme
  | [] => [⟨k, [c]⟩]
  | l :: ls => if k.runs ∧ l.kind = k then ⟨k, c :: l.text⟩ :: ls else ⟨k, [c]⟩ :: l :: ls

theorem attach_flatten (k : LexemeKind) (c : Char) (ls : List Lexeme) :
    (attach k c ls).flatMap text = c :: ls.flatMap text := by
  cases ls with
  | nil => rfl
  | cons l ls => simp only [attach]; split <;> simp

end Lexeme

/-- **The lexemes of a text.** -/
def lexemes : Text → List Lexeme
  | [] => []
  | [c] => [⟨.ofChar c, [c]⟩]
  | c :: d :: t =>
    if c = '\\' ∧ d ≠ '\n' then ⟨.escape, [c, d]⟩ :: lexemes t
    else Lexeme.attach (.ofChar c) c (lexemes (d :: t))

/-- **Lexing loses nothing**: the lexemes' texts concatenate to the text. -/
theorem lexemes_flatten : ∀ t : Text, (lexemes t).flatMap Lexeme.text = t
  | [] => rfl
  | [_] => rfl
  | c :: d :: t => by
    unfold lexemes
    split
    · simp [lexemes_flatten t]
    · rw [Lexeme.attach_flatten, lexemes_flatten (d :: t)]

/-! ## Tokens -/

/-- **A token**: a lexeme and the byte position it starts at. -/
structure Token extends Lexeme where
  start : Nat
  deriving DecidableEq, Repr

namespace Token

/-- The byte position after the token. -/
def finish (t : Token) : Nat := t.start + Text.byteLength t.text

/-- Lexemes laid out one after the other from a byte position on. -/
def layout (start : Nat) : List Lexeme → List Token
  | [] => []
  | l :: ls => { l with start } :: layout (start + Text.byteLength l.text) ls

theorem layout_map_toLexeme : ∀ (n : Nat) (ls : List Lexeme), (layout n ls).map toLexeme = ls
  | _, [] => rfl
  | n, l :: ls => by simp [layout, layout_map_toLexeme _ ls]

end Token

/-- The tokens of a text. -/
def tokenize (t : Text) : List Token := Token.layout 0 (lexemes t)

end TclAtlas
