import TclAtlas.Catalog.Lookup

/-!
# Resolution — which definitions a name refers to

A name is resolved as seen from a file, its **origin**, or from nowhere in particular.  From a file
one sees the definitions of the root namespace, of the namespaces that the file declares or imports
as a whole, and those it imports by name; without an origin one sees all definitions.

A qualified name refers to the definitions of just that name.  A simple name refers to the visible
definitions of that name and, when there is none, to all of them.
-/

namespace TclAtlas

/-- **Whether a file sees a definition**, judged by its outline. -/
def Outline.sees (o : Outline) (d : Definition) : Bool :=
  match d.owner with
  | none => true
  | some ns =>
    o.declares ns || o.importedMembers.contains d.qualifiedName ||
      o.importedNamespaces.contains ns

namespace Catalog

/-- **Whether a definition is visible** from an origin.  A file without an outline sees the root
namespace only. -/
def visible (c : Catalog) (origin : Option FileId) (d : Definition) : Bool :=
  match origin with
  | none => true
  | some file =>
    match c.outline? file with
    | none => d.isGlobal
    | some o => o.sees d

/-- The definitions visible from an origin. -/
def visibleDefinitions (c : Catalog) (origin : Option FileId) : List Definition :=
  c.definitions.filter (c.visible origin)

/-- The visible ones of some candidates, or all of them when none is visible. -/
def preferVisible (c : Catalog) (origin : Option FileId) (ds : List Definition) :
    List Definition :=
  match ds.filter (c.visible origin) with
  | [] => ds
  | seen => seen

/-- **The definitions that a name refers to**, as seen from an origin. -/
def resolve (c : Catalog) (origin : Option FileId) (written : Text) : List Definition :=
  let name := Name.unanchored written
  if name = [] then []
  else if Name.isQualified name then c.withQualifiedName name
  else c.preferVisible origin (c.withSimpleName name)

end Catalog

end TclAtlas
