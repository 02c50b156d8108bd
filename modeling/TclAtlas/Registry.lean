import TclAtlas.Location
import TclAtlas.Ordered.Map
import TclAtlas.Text.Basic

/-!
# Registry — file numbers for paths

Files are registered under the texts of their paths.  These get numbers in the order in which they
are first seen, from zero on, and keep them for good.  A registry looks up both ways, from paths to
numbers and back.
-/

namespace TclAtlas

/-- **What a file is registered under**: its path as a text. -/
abbrev FileKey := Text

/-- **The paths that have a number**, each under its number, with a map back to the numbers. -/
structure Registry where
  numbers : OrderedMap FileKey FileId
  paths : List FileKey
  /-- The number of a path is its position. -/
  numbered : numbers.entries = paths.zipIdx.map fun (p, i) => (p, ⟨i⟩)

namespace Registry

/-- The registry without paths. -/
def empty : Registry := ⟨.empty, [], rfl⟩

instance : Inhabited Registry := ⟨empty⟩

/-- The number of a path, if it has one. -/
def get? (r : Registry) (p : FileKey) : Option FileId := r.numbers.get? p

/-- The path of a number. -/
def path? (r : Registry) (file : FileId) : Option FileKey := r.paths[file.number]?

/-- A path without a number comes last in both directions. -/
theorem numbered_insert (r : Registry) {p : FileKey} (h : r.get? p = none) :
    (r.numbers.insert p ⟨r.paths.length⟩).entries =
      (r.paths ++ [p]).zipIdx.map fun (p, i) => (p, ⟨i⟩) := by
  have hp : p ∉ r.numbers.entries.map Prod.fst := by
    rw [Entries.mem_map_fst_iff]
    exact fun hsome => by simpa [OrderedMap.get?] using Option.isSome_iff_ne_none.mp hsome h
  have hput : (r.numbers.insert p ⟨r.paths.length⟩).entries =
      r.numbers.entries ++ [(p, ⟨r.paths.length⟩)] := Entries.put_of_not_mem _ hp
  rw [hput, r.numbered, List.zipIdx_append, List.map_append]
  simp

/-- **The number of a path**, which is a new one for a path not seen before. -/
def register (r : Registry) (p : FileKey) : FileId × Registry :=
  match h : r.get? p with
  | some file => (file, r)
  | none =>
    let file : FileId := ⟨r.paths.length⟩
    (file, ⟨r.numbers.insert p file, r.paths ++ [p], r.numbered_insert h⟩)

/-- The numbers of several paths, given out in order. -/
def registerAll (r : Registry) : List FileKey → List FileId × Registry
  | [] => ([], r)
  | p :: ps =>
    let (file, r) := r.register p
    let (files, r) := r.registerAll ps
    (file :: files, r)

/-- How many paths have a number. -/
def size (r : Registry) : Nat := r.paths.length

/-- Whether no path has a number. -/
def isEmpty (r : Registry) : Bool := r.paths.isEmpty

/-! ## One path at a time -/

theorem register_of_get? {r : Registry} {p : FileKey} {file : FileId} (h : r.get? p = some file) :
    r.register p = (file, r) := by
  unfold register
  split
  · next h' => rw [Option.some.inj (h.symm.trans h')]
  · next h' => exact absurd (h.symm.trans h') (by simp)

/-- **A new path gets the next number**, and no other number changes. -/
theorem register_of_get?_eq_none {r : Registry} {p : FileKey} (h : r.get? p = none) :
    (r.register p).1 = ⟨r.paths.length⟩ ∧ (r.register p).2.paths = r.paths ++ [p] ∧
      (r.register p).2.numbers = r.numbers.insert p ⟨r.paths.length⟩ := by
  unfold register
  split
  · next h' => exact absurd (h.symm.trans h') (by simp)
  · exact ⟨rfl, rfl, rfl⟩

/-- **Registering gives a path its number for good.** -/
theorem get?_register (r : Registry) (p : FileKey) :
    (r.register p).2.get? p = some (r.register p).1 := by
  rcases h : r.get? p with _ | file
  · obtain ⟨hfile, -, hnumbers⟩ := register_of_get?_eq_none h
    rw [get?, hnumbers, OrderedMap.get?_insert, if_pos rfl, hfile]
  · rw [register_of_get? h, h]

end Registry

end TclAtlas
