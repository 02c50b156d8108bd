import TclAtlas.Proofs.Ordered.Firsts
import TclAtlas.Proofs.Registry.Growth

/-!
# Proofs/Registry/FirstSight — numbers in the order of first sight

A registry that has seen some paths, one after the other, has numbered their firsts
(`Registry.Numbers`): the numbers go from zero up, each belongs to one path, and to look up a number
is to look up its path the other way round.  Only registering a path shows it to the registry.
Looking a path up gives out no new number (`Registry.callAll_snd`), and so the numbers that any
calls are answered are the same ones again, in the same order (`Registry.eraseDups_answers`).
-/

namespace TclAtlas.Registry

/-- **A registry numbers the firsts of some paths**, from zero up in their order. -/
structure Numbers (r : Registry) (ps : List FileKey) : Prop where
  path? : ∀ i, r.path? ⟨i⟩ = ps.eraseDups[i]?
  size : r.size = ps.eraseDups.length
  inverse : ∀ p file, r.path? file = some p ↔ r.get? p = some file

/-- **A later registry keeps the numbers of an earlier one**, and their paths. -/
structure KeptBy (r r' : Registry) : Prop where
  get? : ∀ p file, r.get? p = some file → r'.get? p = some file
  path? : ∀ p file, r.path? file = some p → r'.path? file = some p

/-! ## Registering -/

theorem get?_isSome_iff (r : Registry) (p : FileKey) : (r.get? p).isSome ↔ p ∈ r.paths := by
  rw [Option.isSome_iff_exists, List.mem_iff_getElem?]
  constructor
  · rintro ⟨file, h⟩
    exact ⟨file.number, (r.get?_eq_some_iff p file).mp h⟩
  · rintro ⟨i, h⟩
    exact ⟨⟨i⟩, (r.get?_eq_some_iff p ⟨i⟩).mpr h⟩

/-- **A path is added to those seen**, and to the firsts if it is new. -/
theorem paths_register {r : Registry} {ps : List FileKey} (h : r.paths = ps.eraseDups)
    (p : FileKey) : (r.register p).2.paths = (ps ++ [p]).eraseDups := by
  have hseen : (r.get? p).isSome ↔ p ∈ ps := by rw [get?_isSome_iff, h, List.mem_eraseDups]
  rw [Distinct.eraseDups_concat, ← h]
  rcases hp : r.get? p with _ | file
  · have hnew : p ∉ ps := by simpa [hp] using hseen
    obtain ⟨-, hpaths, -⟩ := register_of_get?_eq_none hp
    rw [hpaths, if_neg (by simpa using hnew)]
  · have hold : p ∈ ps := by simpa [hp] using hseen
    rw [register_of_get? hp, if_pos (by simpa using hold), List.append_nil]

/-- **Registering several paths** adds them in order. -/
theorem paths_registerAll {r : Registry} {ps : List FileKey} (h : r.paths = ps.eraseDups)
    (qs : List FileKey) : (r.registerAll qs).2.paths = (ps ++ qs).eraseDups := by
  induction qs generalizing r ps with
  | nil => rw [List.append_nil]; exact h
  | cons q qs ih =>
    rw [registerAll_cons_snd, ih (paths_register h q), List.append_assoc, List.singleton_append]

theorem Numbers.of_paths {r : Registry} {ps : List FileKey} (h : r.paths = ps.eraseDups) :
    r.Numbers ps where
  path? i := by rw [Registry.path?, h]
  size := by rw [Registry.size, h]
  inverse p file := (r.get?_eq_some_iff p file).symm

theorem Numbers.paths_eq {r : Registry} {ps : List FileKey} (h : r.Numbers ps) :
    r.paths = ps.eraseDups := List.ext_getElem? h.path?

/-- **Registering more paths** numbers the firsts of all of them together. -/
theorem Numbers.registerAll {r : Registry} {ps : List FileKey} (h : r.Numbers ps)
    (qs : List FileKey) :
    (r.registerAll qs).2.Numbers (ps ++ qs) := .of_paths (paths_registerAll h.paths_eq qs)

theorem numbers_empty : empty.Numbers [] := .of_paths rfl

theorem registerAll_append_snd (r : Registry) (ps qs : List FileKey) :
    (r.registerAll (ps ++ qs)).2 = ((r.registerAll ps).2.registerAll qs).2 := by
  induction ps generalizing r with
  | nil => rfl
  | cons p ps ih => exact ih (r.register p).2

theorem keptBy_registerAll (r : Registry) (ps : List FileKey) : r.KeptBy (r.registerAll ps).2 where
  get? _ _ h := get?_registerAll_of_get? ps h
  path? p file h := by
    rw [← get?_eq_some_iff] at h ⊢
    exact get?_registerAll_of_get? ps h

/-! ## Calls -/

/-- **A call of a registry.** -/
inductive Call
  | register (p : FileKey)
  | get (p : FileKey)

/-- The path that a call shows to the registry. -/
def Call.sight? : Call → Option FileKey
  | .register p => some p
  | .get _ => none

/-- **A call**, with the number that it is answered. -/
def call (r : Registry) : Call → Option FileId × Registry
  | .register p =>
    let (file, r) := r.register p
    (some file, r)
  | .get p => (r.get? p, r)

/-- Several calls in order, with their answers. -/
def callAll (r : Registry) : List Call → List (Option FileId) × Registry
  | [] => ([], r)
  | c :: cs =>
    let (answer, r) := r.call c
    let (answers, r) := r.callAll cs
    (answer :: answers, r)

/-- **Looking up changes nothing**: calls do what registering does to the paths that are
registered. -/
theorem callAll_snd (r : Registry) (cs : List Call) :
    (r.callAll cs).2 = (r.registerAll (cs.filterMap Call.sight?)).2 := by
  induction cs generalizing r with
  | nil => rfl
  | cons c cs ih =>
    cases c with
    | register p => exact ih (r.register p).2
    | get p => exact ih r

/-- The first numbers there are. -/
def firstNumbers (n : Nat) : List FileId := (List.range n).map FileId.mk

theorem mem_firstNumbers {n : Nat} {file : FileId} : file ∈ firstNumbers n ↔ file.number < n := by
  obtain ⟨i⟩ := file
  simp [firstNumbers]

/-- **A call is answered an old number or the next one.** -/
theorem eraseDups_answer {r : Registry} {given : List FileId}
    (h : given.eraseDups = firstNumbers r.size) (c : Call) :
    (given ++ (r.call c).1.toList).eraseDups = firstNumbers (r.call c).2.size := by
  have hgiven : ∀ file, file ∈ given ↔ file.number < r.size := fun file => by
    rw [← mem_firstNumbers, ← h, List.mem_eraseDups]
  have hold : ∀ {p : FileKey} {file : FileId}, r.get? p = some file →
      (given ++ [file]).eraseDups = firstNumbers r.size := fun hp => by
    have hmem := (hgiven _).mpr (number_lt_of_get? hp)
    rw [Distinct.eraseDups_concat, if_pos (by simpa using hmem), List.append_nil, h]
  cases c with
  | get p =>
    rcases hp : r.get? p with _ | file
    · simpa [call, hp] using h
    · simpa [call, hp] using hold hp
  | register p =>
    rcases hp : r.get? p with _ | file
    · obtain ⟨hfile, hpaths, -⟩ := register_of_get?_eq_none hp
      have hnew : (⟨r.paths.length⟩ : FileId) ∉ given := fun hmem =>
        absurd ((hgiven _).mp hmem) (Nat.lt_irrefl _)
      have hsize : (r.register p).2.size = r.size + 1 := by simp [size, hpaths]
      change (given ++ [(r.register p).1]).eraseDups = firstNumbers (r.register p).2.size
      rw [hsize, hfile, Distinct.eraseDups_concat, if_neg (by simpa using hnew), h, firstNumbers,
        firstNumbers, List.range_succ, List.map_append]
      rfl
    · rw [call, register_of_get? hp]
      exact hold hp

/-- **The numbers that calls are answered** are those of the registry, each new one the next. -/
theorem eraseDups_answers {r : Registry} {given : List FileId}
    (h : given.eraseDups = firstNumbers r.size) (cs : List Call) :
    (given ++ (r.callAll cs).1.filterMap id).eraseDups = firstNumbers (r.callAll cs).2.size := by
  induction cs generalizing r given with
  | nil => simpa [callAll] using h
  | cons c cs ih =>
    have hanswers : (r.callAll (c :: cs)).1.filterMap id =
        (r.call c).1.toList ++ ((r.call c).2.callAll cs).1.filterMap id := by
      change ((r.call c).1 :: ((r.call c).2.callAll cs).1).filterMap id = _
      rcases (r.call c).1 with _ | file <;> rfl
    rw [hanswers, ← List.append_assoc]
    exact ih (eraseDups_answer h c)

end TclAtlas.Registry
