import TclAtlas.Registry
import Mathlib.Logic.Basic

/-!
# Proofs/Registry/Growth — a registry only grows

Numbers and paths determine each other (`Registry.get?_eq_some_iff`), and registering paths leaves
the numbers of all others as they are.
-/

namespace TclAtlas.Registry

/-- **A path has a number exactly when the number has the path.** -/
theorem get?_eq_some_iff (r : Registry) (p : FileKey) (file : FileId) :
    r.get? p = some file ↔ r.path? file = some p := by
  rw [get?, OrderedMap.get?_eq_some_iff, r.numbered, path?]
  simp only [List.mem_map, Prod.exists, Prod.mk.injEq, List.mem_zipIdx_iff_getElem?]
  constructor
  · rintro ⟨q, i, hq, rfl, rfl⟩
    exact hq
  · intro h
    exact ⟨p, file.number, h, rfl, rfl⟩

/-- **No two paths share a number.** -/
theorem eq_of_get?_eq_some {r : Registry} {p q : FileKey} {file : FileId}
    (hp : r.get? p = some file) (hq : r.get? q = some file) : p = q := by
  rw [get?_eq_some_iff] at hp hq
  exact Option.some.inj (hp.symm.trans hq)

/-- Numbers given out so far lie below the number of paths. -/
theorem number_lt_of_get? {r : Registry} {p : FileKey} {file : FileId} (h : r.get? p = some file) :
    file.number < r.paths.length := by
  rw [get?_eq_some_iff, path?] at h
  exact (List.getElem?_eq_some_iff.mp h).1

theorem get?_register_of_ne {r : Registry} {p q : FileKey} (h : q ≠ p) :
    (r.register p).2.get? q = r.get? q := by
  rcases hp : r.get? p with _ | file
  · obtain ⟨-, -, hnumbers⟩ := register_of_get?_eq_none hp
    rw [get?, hnumbers, OrderedMap.get?_insert, if_neg h, get?]
  · rw [register_of_get? hp]

/-- **Numbers stay as they are** when a path is registered. -/
theorem get?_register_of_get? {r : Registry} {q : FileKey} {file : FileId}
    (h : r.get? q = some file) (p : FileKey) : (r.register p).2.get? q = some file := by
  rcases eq_or_ne q p with rfl | hne
  · rw [register_of_get? h, h]
  · rw [get?_register_of_ne hne, h]

/-- A new path gets the next number. -/
theorem register_fst_of_get?_eq_none {r : Registry} {p : FileKey} (h : r.get? p = none) :
    (r.register p).1 = ⟨r.paths.length⟩ := (register_of_get?_eq_none h).1

/-! ## Registering several paths -/

theorem registerAll_cons_snd (r : Registry) (p : FileKey) (ps : List FileKey) :
    (r.registerAll (p :: ps)).2 = ((r.register p).2.registerAll ps).2 := rfl

theorem registerAll_cons_fst (r : Registry) (p : FileKey) (ps : List FileKey) :
    (r.registerAll (p :: ps)).1 = (r.register p).1 :: ((r.register p).2.registerAll ps).1 := rfl

theorem get?_registerAll_of_get? {q : FileKey} {file : FileId} :
    ∀ (ps : List FileKey) {r : Registry},
      r.get? q = some file → (r.registerAll ps).2.get? q = some file
  | [], _, h => h
  | p :: ps, _, h => get?_registerAll_of_get? ps (get?_register_of_get? h p)

/-- **The numbers answered are those that the paths have afterwards.** -/
theorem map_some_registerAll : ∀ (ps : List FileKey) (r : Registry),
    (r.registerAll ps).1.map some = ps.map (r.registerAll ps).2.get?
  | [], _ => rfl
  | p :: ps, r => by
    have hfirst : (r.registerAll (p :: ps)).2.get? p = some (r.register p).1 :=
      get?_registerAll_of_get? ps (r.get?_register p)
    rw [registerAll_cons_fst, List.map_cons, List.map_cons, hfirst, registerAll_cons_snd,
      map_some_registerAll ps]

theorem exists_get?_registerAll {q : FileKey} {ps : List FileKey} (h : q ∈ ps) (r : Registry) :
    ∃ file, (r.registerAll ps).2.get? q = some file := by
  have hmem : (r.registerAll ps).2.get? q ∈ (r.registerAll ps).1.map some :=
    map_some_registerAll ps r ▸ List.mem_map_of_mem h
  obtain ⟨file, -, hfile⟩ := List.mem_map.mp hmem
  exact ⟨file, hfile.symm⟩

theorem length_registerAll (ps : List FileKey) (r : Registry) :
    (r.registerAll ps).1.length = ps.length := by
  simpa using congrArg List.length (map_some_registerAll ps r)

end TclAtlas.Registry
