import TclAtlas.Catalog.Table
import TclAtlas.Scan

/-!
# Catalog — the symbols of many files

A **catalog** holds one outline per file, in the order in which the files came in, and the tables
that answer questions by name.  The outline of a file is replaced as a whole: the terms of the old
one are unlinked, those of the new one linked, and the file keeps its place.
-/

namespace TclAtlas

/-- **A catalog** of the symbols of many files. -/
structure Catalog where
  /-- The outlines, in the order in which their files came in. -/
  outlines : OrderedMap FileId Outline
  table : Table
  /-- The files with a block for a namespace. -/
  declaring : Buckets Text FileId

/-- **The sizes of a catalog.** -/
structure CatalogSizes where
  files : Nat
  definitions : Nat
  simpleNames : Nat
  qualifiedNames : Nat
  namespaces : Nat
  boundVariables : Nat
  dicts : Nat
  dictKeys : Nat
  deriving DecidableEq, Repr

namespace Catalog

/-- The catalog of no files. -/
def empty : Catalog := ⟨.empty, .empty, .empty⟩

instance : Inhabited Catalog := ⟨empty⟩

/-! ## The outlines -/

/-- The files, in the order in which they came in. -/
def files (c : Catalog) : List FileId := c.outlines.keys

/-- The outline of a file. -/
def outline? (c : Catalog) (file : FileId) : Option Outline := c.outlines.get? file

/-- Whether a file is in the catalog. -/
def contains (c : Catalog) (file : FileId) : Bool := c.outlines.contains file

/-- The number of files. -/
def fileCount (c : Catalog) : Nat := c.outlines.size

/-- Whether there are no files. -/
def isEmpty (c : Catalog) : Bool := c.outlines.isEmpty

/-! ## Updates -/

/-- The catalog with the tables cleared of what a file contributes to them. -/
def unlink (c : Catalog) (file : FileId) : Catalog :=
  match c.outline? file with
  | none => c
  | some o =>
    { c with
      table := c.table.unlink file o
      declaring := c.declaring.pruneAll o.namespaces (· ≠ file) }

/-- The catalog with what an outline contributes to the tables. -/
def link (c : Catalog) (file : FileId) (o : Outline) : Catalog :=
  { c with
    table := c.table.link file o
    declaring := c.declaring.addAll (o.namespaces.map (·, file)) }

/-- **Give a file an outline.**  A file that has one keeps its place. -/
def apply (c : Catalog) (file : FileId) (o : Outline) : Catalog :=
  let c' := (c.unlink file).link file o
  { c' with outlines := c'.outlines.insert file o }

/-- **Take a file out.** -/
def remove (c : Catalog) (file : FileId) : Catalog :=
  let c' := c.unlink file
  { c' with outlines := c'.outlines.erase file }

/-- Give a file the outline of a text. -/
def applyText (c : Catalog) (file : FileId) (text : Text) : Catalog :=
  c.apply file (scanText file text)

/-- **The catalog of the given outlines**, applied in order to the empty catalog. -/
def ofOutlines (os : List (FileId × Outline)) : Catalog :=
  os.foldl (fun c (file, o) => c.apply file o) empty

/-- The catalog of the given texts. -/
def ofTexts (ts : List (FileId × Text)) : Catalog :=
  ofOutlines (ts.map fun (file, text) => (file, scanText file text))

/-! ## Outlines after an update -/

@[simp] theorem outlines_unlink (c : Catalog) (file : FileId) :
    (c.unlink file).outlines = c.outlines := by
  rw [unlink]
  split <;> rfl

@[simp] theorem outlines_link (c : Catalog) (file : FileId) (o : Outline) :
    (c.link file o).outlines = c.outlines := rfl

theorem outlines_apply (c : Catalog) (file : FileId) (o : Outline) :
    (c.apply file o).outlines = c.outlines.insert file o := by
  rw [apply, outlines_link, outlines_unlink]

theorem outlines_remove (c : Catalog) (file : FileId) :
    (c.remove file).outlines = c.outlines.erase file := by
  rw [remove, outlines_unlink]

@[simp] theorem outline?_empty (file : FileId) : empty.outline? file = none := rfl

/-- **Only the file given an outline gets one.** -/
theorem outline?_apply (c : Catalog) (file f : FileId) (o : Outline) :
    (c.apply file o).outline? f = if f = file then some o else c.outline? f := by
  rw [outline?, outlines_apply, OrderedMap.get?_insert]
  rfl

/-- **Only the file taken out loses its outline.** -/
theorem outline?_remove (c : Catalog) (file f : FileId) :
    (c.remove file).outline? f = if f = file then none else c.outline? f := by
  rw [outline?, outlines_remove, OrderedMap.get?_erase]
  rfl

theorem mem_files_iff (c : Catalog) (file : FileId) :
    file ∈ c.files ↔ (c.outline? file).isSome :=
  c.outlines.mem_keys_iff file

/-! ## Sizes and comparison -/

/-- **The sizes of the catalog.** -/
def sizes (c : Catalog) : CatalogSizes where
  files := c.outlines.size
  definitions := (c.outlines.values.flatMap Outline.definitions).length
  simpleNames := c.table.count .simpleName
  qualifiedNames := c.table.count .qualifiedName
  namespaces := c.declaring.size
  boundVariables := c.table.count .boundVariable
  dicts := c.table.count .dict
  dictKeys := c.table.count .dictKey

/-- **Whether two catalogs agree** up to the order of their files, names and slots. -/
def same (c d : Catalog) : Bool :=
  OrderedMap.agrees Outline.same c.outlines d.outlines &&
    OrderedMap.agrees Distinct.sameMembers c.table d.table &&
    OrderedMap.agrees Distinct.sameMembers c.declaring d.declaring

end Catalog

end TclAtlas
