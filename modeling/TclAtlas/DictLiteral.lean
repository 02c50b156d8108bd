import TclAtlas.Text.Blank
import TclAtlas.Word
import TclAtlas.Word.Form
import TclAtlas.Word.Group

/-!
# DictLiteral — the keys of a dictionary written out in a script

A bracketed command that starts with the words `dict create` writes out a dictionary: the words
after these are keys and values in turn.  A value may be such a command again.  Keys that are no
identifiers are passed over together with their values, a last key without a value has the empty
value, and literals nested more than `maxNesting` deep are not opened.
-/

namespace TclAtlas

/-- **An entry of a dictionary literal**: the key, the value as written and, when the value is a
dictionary literal itself, its entries. -/
inductive DictEntry
  | plain (key value : Text)
  | nested (key value : Text) (entries : List DictEntry)

namespace DictEntry

/-- The key, its wrapping taken off. -/
def key : DictEntry → Text
  | plain k _ | nested k _ _ => k

/-- The value as written. -/
def value : DictEntry → Text
  | plain _ v | nested _ v _ => v

end DictEntry

namespace DictLiteral

/-- How deep literals may be nested inside an outermost one and still be opened. -/
def maxNesting : Nat := 32

/-- The two words that begin a dictionary literal. -/
def dictWord : Text := ['d', 'i', 'c', 't']

@[inherit_doc dictWord]
def createWord : Text := ['c', 'r', 'e', 'a', 't', 'e']

/-- The keys and values that follow the two words beginning a literal, if `text` is one.  A missing
closing bracket is tolerated. -/
def body? (text : Text) : Option Text := do
  let inner ← Delimiter.bracket.content? (Text.trim text)
  match splitWords inner with
  | first :: second :: _ =>
    if first.text = dictWord ∧ second.text = createWord then
      some (Text.dropBytes second.finish inner)
    else none
  | _ => none

/-- Words taken two at a time as key and value; a last key without a value gets the empty one. -/
def pairs : List Text → List (Text × Text)
  | [] => []
  | [k] => [(k, [])]
  | k :: v :: ws => (k, v) :: pairs ws

/-- The entries of a literal's body, opening values down to the given number of levels. -/
def entriesWithin : Nat → Text → List DictEntry
  | 0, body => (bodyPairs body).map fun (k, v) => .plain k v
  | levels + 1, body => (bodyPairs body).map fun (k, v) =>
    match body? v with
    | some inner => .nested k v (entriesWithin levels inner)
    | none => .plain k v
where
  /-- The pairs of a body whose key is an identifier. -/
  bodyPairs (body : Text) : List (Text × Text) :=
    (pairs ((splitWords body).map Word.text)).filterMap fun (k, v) =>
      (Text.identifier? k).map (·, v)

/-- **The entries of a literal's body.** -/
def entries (body : Text) : List DictEntry := entriesWithin maxNesting body

end DictLiteral

end TclAtlas
