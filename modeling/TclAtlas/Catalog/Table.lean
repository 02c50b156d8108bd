import TclAtlas.Ordered.Buckets
import TclAtlas.Outline

/-!
# Catalog/Table — from names to the places that carry them

A symbol of a file is known by several names: a definition by its simple name, its qualified name
and its owner, a dictionary by its own name and by each of its keys.  `Outline.terms` lists these
**terms** with the slot of the symbol in the file's outline.  A **table** maps a term to the slots
that carry it, in whatever files; a term that no slot carries is not in the table.
-/

namespace TclAtlas

/-- **The ways in which a symbol is named.** -/
inductive Aspect
  | simpleName
  | qualifiedName
  /-- The namespace that owns a definition. -/
  | owner
  | boundVariable
  | dict
  | dictKey
  deriving DecidableEq, Repr

/-- **A term**: a name under one of its aspects. -/
structure Term where
  aspect : Aspect
  name : Text
  deriving DecidableEq, Repr

/-- **A slot**: the position of a symbol among those of its sort in the outline of a file. -/
structure Slot where
  file : FileId
  index : Nat
  deriving DecidableEq, Repr

/-! ## The terms of an outline -/

namespace Outline

/-- The names that an outline carries under one aspect, each with the position of its symbol. -/
def named (o : Outline) : Aspect → List (Text × Nat)
  | .simpleName => o.definitions.zipIdx.map fun (d, i) => (d.name, i)
  | .qualifiedName => o.definitions.zipIdx.map fun (d, i) => (d.qualifiedName, i)
  | .owner => o.definitions.zipIdx.filterMap fun (d, i) => d.owner.map (·, i)
  | .boundVariable => o.bindings.zipIdx.map fun (b, i) => (b.name, i)
  | .dict => o.dicts.keys.zipIdx
  | .dictKey => o.dicts.values.zipIdx.flatMap fun (d, i) => d.keys.map (·, i)

/-- **The terms of an outline**, each with the position of its symbol. -/
def terms (o : Outline) : List (Term × Nat) :=
  [Aspect.simpleName, .qualifiedName, .owner, .boundVariable, .dict, .dictKey].flatMap fun a =>
    (o.named a).map fun (n, i) => (⟨a, n⟩, i)

end Outline

/-! ## Tables -/

/-- **A table**: the slots that carry a term. -/
abbrev Table := Buckets Term Slot

namespace Table

/-- The slots that carry a term. -/
def slots (t : Table) (k : Term) : List Slot := t.bucket k

/-- The table with the terms of a file's outline. -/
def link (t : Table) (file : FileId) (o : Outline) : Table :=
  t.addAll (o.terms.map fun (k, i) => (k, ⟨file, i⟩))

/-- The table without the terms of a file's outline, which are dropped where no other file has
them. -/
def unlink (t : Table) (file : FileId) (o : Outline) : Table :=
  t.pruneAll (o.terms.map Prod.fst) (·.file ≠ file)

/-- The number of names with an aspect. -/
def count (t : Table) (a : Aspect) : Nat := t.keys.countP (·.aspect = a)

end Table

end TclAtlas
