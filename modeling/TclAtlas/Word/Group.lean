import TclAtlas.Token

/-!
# Word/Group — what a brace or bracket group holds

A word that starts with an opening brace or bracket is a **group**.  Its content runs to the
matching closing delimiter, or to the end of the word when the group is never closed.  Escaped
delimiters do not count.  Inside brackets, delimiters within a quoted string do not count either;
inside braces a quote is an ordinary character.
-/

namespace TclAtlas

/-- **The two pairs of delimiters** that group words. -/
inductive Delimiter
  | brace
  | bracket
  deriving DecidableEq, Repr

namespace Delimiter

/-- The character that opens a group. -/
def openChar : Delimiter → Char
  | brace => '{'
  | bracket => '['

/-- The character that closes a group. -/
def closeChar : Delimiter → Char
  | brace => '}'
  | bracket => ']'

/-- The kind of lexeme that opens a group. -/
def opens : Delimiter → LexemeKind
  | brace => .openBrace
  | bracket => .openBracket

/-- The kind of lexeme that closes a group. -/
def closes : Delimiter → LexemeKind
  | brace => .closeBrace
  | bracket => .closeBracket

/-- Whether quoted strings hide the delimiters within them. -/
def heedsQuotes : Delimiter → Bool
  | brace => false
  | bracket => true

/-- The delimiters with the given opening and closing characters, if they form a pair. -/
def ofChars? (opening closing : Char) : Option Delimiter :=
  if opening = '{' ∧ closing = '}' then some brace
  else if opening = '[' ∧ closing = ']' then some bracket
  else none

/-- The text before the close of a group: `depth` groups are open inside it, and `quoted` tells
whether a quoted string is. -/
def untilClose (d : Delimiter) (depth : Nat) (quoted : Bool) : List Lexeme → Text
  | [] => []
  | l :: ls =>
    if l.kind = .quote ∧ d.heedsQuotes then l.text ++ untilClose d depth (!quoted) ls
    else if quoted then l.text ++ untilClose d depth quoted ls
    else if l.kind = d.opens then l.text ++ untilClose d (depth + 1) quoted ls
    else if l.kind = d.closes then
      match depth with
      | 0 => []
      | depth + 1 => l.text ++ untilClose d depth quoted ls
    else l.text ++ untilClose d depth quoted ls

/-- **The content of a group**, or `none` for a word that does not open one. -/
def content? (d : Delimiter) : Text → Option Text
  | [] => none
  | c :: t => if c = d.openChar then some (d.untilClose 0 false (lexemes t)) else none

end Delimiter

end TclAtlas
