import TclAtlas.Location
import TclAtlas.Name
import TclAtlas.Parameter

/-!
# Definition — procedures and methods

A definition belongs to a namespace, or to the root.  A qualified name decides the namespace by
itself; a plain name belongs to the namespace block around it.  A name whose last segment is empty
defines nothing.
-/

namespace TclAtlas

/-- **What kind of callable** a definition introduces. -/
inductive DefinitionKind
  | proc
  | method
  deriving DecidableEq, Repr

namespace DefinitionKind

/-- The word that introduces a definition of this kind. -/
def keyword : DefinitionKind → Text
  | proc => ['p', 'r', 'o', 'c']
  | method => ['m', 'e', 't', 'h', 'o', 'd']

/-- The kind that a word introduces, if it introduces one. -/
def ofKeyword? (w : Text) : Option DefinitionKind :=
  if w = proc.keyword then some proc else if w = method.keyword then some method else none

@[simp] theorem ofKeyword?_keyword (k : DefinitionKind) : ofKeyword? k.keyword = some k := by
  cases k <;> rfl

end DefinitionKind

/-- **A definition** of a procedure or method. -/
structure Definition where
  kind : DefinitionKind
  /-- The last segment of the name as written. -/
  name : Text
  params : List Parameter
  /-- The owning namespace, unanchored; `none` for the root. -/
  owner : Option Text
  location : Location
  /-- Whether the name was written with a root anchor. -/
  anchored : Bool
  deriving DecidableEq, Repr

namespace Definition

/-- **The definition of a name as written**, inside the given namespace block if any. -/
def make? (kind : DefinitionKind) (written : Text) (params : List Parameter)
    (enclosing : Option Text) (location : Location) : Option Definition :=
  let (owner, name) :=
    if Name.isQualified written then Name.split written
    else (enclosing.bind Name.asNamespace, written)
  if name = [] then none
  else some ⟨kind, name, params, owner, location, Name.isAnchored written⟩

/-- The name with the owning namespace in front. -/
def qualifiedName (d : Definition) : Text := Name.qualify d.owner d.name

/-- Whether the definition belongs to the root namespace. -/
def isGlobal (d : Definition) : Bool := d.owner.isNone

/-- **The signature as shown to a reader**: the name and the labels of the parameters. -/
def label (d : Definition) : Text := d.name ++ d.params.flatMap fun p => ' ' :: p.label

end Definition

end TclAtlas
