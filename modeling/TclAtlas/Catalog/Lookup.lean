import TclAtlas.Catalog

/-!
# Catalog/Lookup — the symbols a catalog has under a name

Lookups go through the tables.  What they find comes in the order of the files, and within a file in
the order of the outline.
-/

namespace TclAtlas.Catalog

/-! ## Slots in order -/

/-- The place of a slot: the position of its file, and its own position in the outline. -/
def place? (c : Catalog) (s : Slot) : Option (Nat × Nat) :=
  (c.outlines.position? s.file).map (·, s.index)

/-- The order of places. -/
def placeLe (p q : Nat × Nat) : Bool := p.1 < q.1 || (p.1 == q.1 && p.2 ≤ q.2)

/-- **What the slots of a term hold**, in the order of files and slots; `get` reads a slot of an
outline. -/
def collect (c : Catalog) (k : Term) (get : Outline → Nat → Option α) : List α :=
  (((c.table.slots k).filterMap c.place?).mergeSort placeLe).filterMap fun (file, i) => do
    get (← c.outlines.valueAt? file) i

/-! ## Definitions -/

/-- The definition in a slot. -/
def definition? (c : Catalog) (s : Slot) : Option Definition := do
  (← c.outline? s.file).definitions[s.index]?

/-- **All definitions**, in the order of files and lines. -/
def definitions (c : Catalog) : List Definition := c.outlines.values.flatMap Outline.definitions

/-- The definitions that carry a term. -/
def definitionsOf (c : Catalog) (k : Term) : List Definition :=
  c.collect k fun o i => o.definitions[i]?

/-- The definitions with a simple name. -/
def withSimpleName (c : Catalog) (n : Text) : List Definition := c.definitionsOf ⟨.simpleName, n⟩

/-- The definitions with a qualified name. -/
def withQualifiedName (c : Catalog) (n : Text) : List Definition :=
  c.definitionsOf ⟨.qualifiedName, n⟩

/-- The definitions that a namespace owns. -/
def ownedBy (c : Catalog) (ns : Text) : List Definition := c.definitionsOf ⟨.owner, ns⟩

/-! ## Namespaces -/

/-- **All namespaces** that a file declares or that own a definition, sorted. -/
def namespaces (c : Catalog) : List Text :=
  let owners := c.table.keys.filterMap fun k => if k.aspect = .owner then some k.name else none
  ((c.declaring.keys ++ owners).eraseDups).mergeSort Text.le

/-- The files with a block for a namespace. -/
def filesDeclaring (c : Catalog) (ns : Text) : List FileId := c.declaring.bucket ns

/-! ## Variables and dictionaries -/

/-- All bindings, in the order of files and lines. -/
def bindings (c : Catalog) : List Binding := c.outlines.values.flatMap Outline.bindings

/-- The bindings of a variable. -/
def bindingsOf (c : Catalog) (n : Text) : List Binding :=
  c.collect ⟨.boundVariable, n⟩ fun o i => o.bindings[i]?

/-- The dictionary shapes with a name. -/
def dictsNamed (c : Catalog) (n : Text) : List DictShape :=
  c.collect ⟨.dict, n⟩ fun o i => o.dicts.valueAt? i

/-- The dictionary shapes that hold a key. -/
def dictsWithKey (c : Catalog) (k : Text) : List DictShape :=
  c.collect ⟨.dictKey, k⟩ fun o i => o.dicts.valueAt? i

end TclAtlas.Catalog
