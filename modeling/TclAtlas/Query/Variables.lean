import TclAtlas.Catalog.Lookup

/-!
# Query/Variables — what is known of a variable

Variables may be asked for with the dollar sign of a substitution in front.  The dictionary shapes
of one name in all files are merged: the keys are those of any of them, each once, and the parent is
the first one given.
-/

namespace TclAtlas

/-- A variable's name without the dollar sign of a substitution. -/
def Name.unsubstituted : Text → Text
  | '$' :: n => n
  | n => n

/-- **A dictionary variable**, merged from the shapes it has in all files. -/
structure DictSummary where
  name : Text
  parent : Option Text
  keys : List Text
  deriving DecidableEq, Repr

namespace Catalog

/-- **The bindings of a variable** and, when there are none, those of the last segment of its
name. -/
def lookupVariable (c : Catalog) (written : Text) : List Binding :=
  let name := Name.unsubstituted written
  match c.bindingsOf name with
  | [] => if Name.simple name = name then [] else c.bindingsOf (Name.simple name)
  | found => found

/-- The bindings of variables whose name begins with `start`. -/
def bindingsFrom (c : Catalog) (start : Text) : List Binding :=
  c.bindings.filter fun b => start.isPrefixOf b.name

/-- **The known keys of a dictionary variable**, from all files. -/
def dictKeys (c : Catalog) (written : Text) : List Text :=
  ((c.dictsNamed (Name.unsubstituted written)).flatMap DictShape.keys).eraseDups

/-- The dictionary in whose literal a dictionary was nested. -/
def parentDict (c : Catalog) (written : Text) : Option Text :=
  (c.dictsNamed (Name.unsubstituted written)).findSome? DictShape.parent

/-- **The dictionaries that hold a key**, each once. -/
def dictsHolding (c : Catalog) (key : Text) : List DictSummary :=
  ((c.dictsWithKey key).map DictShape.name).eraseDups.map fun n =>
    ⟨n, c.parentDict n, c.dictKeys n⟩

end Catalog

end TclAtlas
