import TclAtlas.Definition
import TclAtlas.Word
import TclAtlas.Word.Form
import TclAtlas.Word.Group

/-!
# Definition/Header — the line that introduces a definition

A definition is introduced by a keyword, a name and a braced parameter list on one line.  A
parameter list that is not closed on the line runs to its end.
-/

namespace TclAtlas

/-- **The header of a definition** as written, before it is given a namespace. -/
structure Header where
  kind : DefinitionKind
  name : Text
  params : List Parameter
  /-- The byte column of the name. -/
  column : Nat
  deriving DecidableEq, Repr

namespace Header

/-- The header that the words of a line make up. -/
def ofWords? : List Word → Option Header
  | keyword :: name :: params :: _ => do
    let kind ← DefinitionKind.ofKeyword? keyword.text
    if Text.isSymbolName name.text then
      let list ← Delimiter.brace.content? params.text
      return ⟨kind, name.text, Parameter.parseList list, name.start⟩
    else none
  | _ => none

/-- **The header on a line**, if there is one. -/
def parse? (line : Text) : Option Header := ofWords? (splitWords line)

end Header

end TclAtlas
