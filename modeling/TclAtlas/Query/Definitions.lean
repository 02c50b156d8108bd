import TclAtlas.Resolution

/-!
# Query/Definitions — where definitions are, and how they are called

What an editor shows for a name: the places to go to, and the signatures to help with a call; and
the names it offers while one is typed.
-/

namespace TclAtlas

/-- **A place to go to** for a name. -/
structure Target where
  location : Location
  kind : DefinitionKind
  qualifiedName : Text
  deriving DecidableEq, Repr

/-- **A signature**, ready to be shown. -/
structure Signature where
  kind : DefinitionKind
  name : Text
  qualifiedName : Text
  params : List Parameter
  location : Location
  label : Text
  deriving DecidableEq, Repr

/-- The place to go to for a definition. -/
def Target.ofDefinition (d : Definition) : Target := ⟨d.location, d.kind, d.qualifiedName⟩

namespace Signature

/-- The signature of a definition. -/
def ofDefinition (d : Definition) : Signature :=
  ⟨d.kind, d.name, d.qualifiedName, d.params, d.location, d.label⟩

/-- The labels of the parameters. -/
def paramLabels (s : Signature) : List Text := s.params.map Parameter.label

end Signature

namespace Catalog

/-- **The places to go to** for a name. -/
def targets (c : Catalog) (origin : Option FileId) (name : Text) : List Target :=
  (c.resolve origin name).map .ofDefinition

/-- The locations of what a name refers to. -/
def locations (c : Catalog) (origin : Option FileId) (name : Text) : List Location :=
  (c.targets origin name).map Target.location

/-- **The signatures** of what a name refers to. -/
def signatures (c : Catalog) (origin : Option FileId) (name : Text) : List Signature :=
  (c.resolve origin name).map .ofDefinition

/-- The signatures of the definitions of a file, in the order of lines. -/
def fileSignatures (c : Catalog) (file : FileId) : List Signature :=
  match c.outline? file with
  | none => []
  | some o => o.definitions.map .ofDefinition

/-! ## Names to be typed

From an origin one can call the visible definitions by their simple names, and every definition
outside the root namespace by its qualified name.  Names are listed once each, in the order of the
catalog, and may be narrowed to those with a given beginning. -/

/-- **The names of callables** offered from an origin that begin with `start`; an anchor in front of
`start` is ignored. -/
def callables (c : Catalog) (origin : Option FileId) (start : Text) : List Text :=
  let simple := (c.visibleDefinitions origin).map Definition.name
  let qualified := (c.definitions.filter (!·.isGlobal)).map Definition.qualifiedName
  (simple ++ qualified).eraseDups.filter (Name.unanchored start).isPrefixOf

/-- The simple names of the definitions that a namespace owns, if they begin with `start`. -/
def members (c : Catalog) (ns : Text) (start : Text) : List Text :=
  (((c.ownedBy (Name.unanchored ns)).map Definition.name).filter start.isPrefixOf).eraseDups

end Catalog

end TclAtlas
