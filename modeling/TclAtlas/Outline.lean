import TclAtlas.Definition
import TclAtlas.DictLiteral
import TclAtlas.Ordered.Map

/-!
# Outline — the symbols of one file

A scan of a file makes **findings** one after the other; the **outline** of the file is what they
add up to (`Outline.ofFindings`).  Definitions and bindings are kept in the order found.  Namespaces
and imports are kept once each.  All keys found for one dictionary name are joined into one
**dictionary shape**, which keeps the first place it was found at and the first parent it was given.
-/

namespace TclAtlas

/-! ## What an outline holds -/

/-- **A binding** of a variable: the name, the value as written and the place of the name. -/
structure Binding where
  name : Text
  value : Text
  location : Location
  deriving DecidableEq, Repr

/-- **The known keys of a dictionary variable.** -/
structure DictShape where
  name : Text
  /-- The keys in the order found, each once. -/
  keys : List Text
  /-- The dictionary in whose literal this one was nested. -/
  parent : Option Text
  /-- The place it was first found at. -/
  location : Location
  deriving DecidableEq, Repr

/-- **An import**: of all definitions of a namespace, or of one definition by its qualified name. -/
inductive Import
  | wildcard (ns : Text)
  | member (name : Text)
  deriving DecidableEq, Repr

namespace Import

/-- The end of a pattern that imports a whole namespace. -/
def wildcardEnd : Text := Name.separator ++ ['*']

/-- The import that a pattern stands for.  Options, plain names and the root namespace import
nothing. -/
def ofPattern? (p : Text) : Option Import :=
  if p.head? = some '-' then none
  else if wildcardEnd.isSuffixOf p then
    (Name.asNamespace (p.take (p.length - wildcardEnd.length))).map wildcard
  else if Name.isQualified p then some (member p)
  else none

end Import

/-! ## Findings -/

/-- **A finding** of a scan. -/
inductive Finding
  | definition (d : Definition)
  | binding (b : Binding)
  /-- Keys of the dictionary of the given name. -/
  | dictKeys (name : Text) (keys : List Text) (parent : Option Text) (location : Location)
  /-- A namespace block. -/
  | declared (ns : Text)
  | imported (i : Import)

namespace Finding

/-- The keys of a dictionary's entries as a finding, if there are entries. -/
def ofKeys (location : Location) (name : Text) (parent : Option Text) (entries : List DictEntry) :
    List Finding :=
  if entries.isEmpty then [] else [.dictKeys name (entries.map DictEntry.key) parent location]

mutual

/-- The findings in the value of an entry of the dictionary `name`. -/
def ofValue (location : Location) (name : Text) : DictEntry → List Finding
  | .plain _ _ => []
  | .nested k _ inner => ofKeys location k (some name) inner ++ ofValues location k inner

/-- The findings in the values of several entries of the dictionary `name`. -/
def ofValues (location : Location) (name : Text) : List DictEntry → List Finding
  | [] => []
  | e :: es => ofValue location name e ++ ofValues location name es

end

/-- **The findings that a dictionary literal makes**: the keys of the dictionary itself first, then
those of the dictionaries nested in it. -/
def ofDict (location : Location) (name : Text) (entries : List DictEntry) : List Finding :=
  ofKeys location name none entries ++ ofValues location name entries

end Finding

/-! ## Outlines -/

/-- **The outline of a file**: the symbols found in it. -/
structure Outline where
  definitions : List Definition
  bindings : List Binding
  /-- By dictionary name, in the order found. -/
  dicts : OrderedMap Text DictShape
  /-- The namespaces that blocks of the file open. -/
  namespaces : List Text
  imports : List Import

namespace Outline

/-- The outline of a file without symbols. -/
def empty : Outline := ⟨[], [], .empty, [], []⟩

instance : Inhabited Outline := ⟨empty⟩

/-- Whether the file holds no symbols. -/
def isEmpty (o : Outline) : Bool :=
  o.definitions.isEmpty && o.bindings.isEmpty && o.dicts.isEmpty && o.namespaces.isEmpty &&
    o.imports.isEmpty

/-- Whether a block of the file opens the namespace. -/
def declares (o : Outline) (ns : Text) : Bool := o.namespaces.contains ns

/-- The namespaces imported as a whole. -/
def importedNamespaces (o : Outline) : List Text :=
  o.imports.filterMap fun | .wildcard ns => some ns | .member _ => none

/-- The qualified names imported one by one. -/
def importedMembers (o : Outline) : List Text :=
  o.imports.filterMap fun | .wildcard _ => none | .member n => some n

/-- A dictionary shape with more keys, and with the given parent if it had none. -/
def addKeys (keys : List Text) (parent : Option Text) (d : DictShape) : DictShape :=
  { d with keys := Distinct.insertAll keys d.keys, parent := d.parent.or parent }

/-- **The outline with one more finding.** -/
def add (o : Outline) : Finding → Outline
  | .definition d => { o with definitions := o.definitions ++ [d] }
  | .binding b => { o with bindings := o.bindings ++ [b] }
  | .dictKeys name keys parent location =>
    let shape := (o.dicts.get? name).getD ⟨name, [], none, location⟩
    { o with dicts := o.dicts.insert name (addKeys keys parent shape) }
  | .declared ns => { o with namespaces := Distinct.insertLast ns o.namespaces }
  | .imported i => { o with imports := Distinct.insertLast i o.imports }

/-- The outline with more findings. -/
def addAll (o : Outline) (fs : List Finding) : Outline := fs.foldl add o

/-- **The outline that findings add up to.** -/
def ofFindings (fs : List Finding) : Outline := empty.addAll fs

@[simp] theorem addAll_nil (o : Outline) : o.addAll [] = o := rfl

@[simp] theorem addAll_append (o : Outline) (fs gs : List Finding) :
    o.addAll (fs ++ gs) = (o.addAll fs).addAll gs := List.foldl_append

/-! ## Comparison -/

/-- Whether two dictionary shapes agree up to the order of their keys. -/
def sameShape (d e : DictShape) : Bool :=
  d.name == e.name && Distinct.sameMembers d.keys e.keys && d.parent == e.parent &&
    d.location == e.location

/-- **Whether two outlines agree** up to the order of dictionaries and of keys in a dictionary. -/
def same (o p : Outline) : Bool :=
  o.definitions == p.definitions && o.bindings == p.bindings &&
    OrderedMap.agrees sameShape o.dicts p.dicts && o.namespaces == p.namespaces &&
    o.imports == p.imports

end Outline

end TclAtlas
