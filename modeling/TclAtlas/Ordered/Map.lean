import TclAtlas.Ordered.Distinct

/-!
# Ordered/Map — maps that remember the order of insertion

An **ordered map** is a list of entries no two of which share a key.  A new key is inserted at the
end; inserting a key that is there replaces its value in place (`keys_insert`); erasing keeps the
order of the rest.  Looking up after an update is as expected: `get?_insert`, `get?_erase`.

Two maps can agree without having the same order: `agrees` compares them key by key.
-/

namespace TclAtlas

variable {κ : Type u} {ν : Type v} {μ : Type w}

/-! ## Association lists -/

namespace Entries

variable [DecidableEq κ]

theorem lookup_cons (k : κ) (e : κ × ν) (es : List (κ × ν)) :
    (e :: es).lookup k = if k = e.1 then some e.2 else es.lookup k := by
  rw [List.lookup_cons]
  by_cases h : k = e.1
  · simp [h]
  · rw [beq_false_of_ne h, if_neg h]

theorem mem_map_fst_iff (k : κ) :
    ∀ es : List (κ × ν), k ∈ es.map Prod.fst ↔ (es.lookup k).isSome
  | [] => by simp
  | e :: es => by
    rw [List.map_cons, List.mem_cons, mem_map_fst_iff k es, lookup_cons]
    by_cases h : k = e.1 <;> simp [h]

/-- When no two entries share a key, looking up finds every entry. -/
theorem lookup_eq_some_iff (k : κ) (v : ν) :
    ∀ es : List (κ × ν), (es.map Prod.fst).Nodup → (es.lookup k = some v ↔ (k, v) ∈ es)
  | [], _ => by simp
  | e :: es, h => by
    obtain ⟨he, hes⟩ := List.nodup_cons.mp h
    rw [lookup_cons, List.mem_cons]
    by_cases hk : k = e.1
    · subst hk
      have hne : (e.1, v) ∉ es := fun hmem => he (List.mem_map.mpr ⟨_, hmem, rfl⟩)
      simp [hne, Prod.ext_iff, eq_comm]
    · rw [if_neg hk, lookup_eq_some_iff k v es hes]
      exact ⟨Or.inr, fun h => h.resolve_left fun heq => hk (congrArg Prod.fst heq)⟩

/-- The entries with the value of `k` replaced, or a new entry at the end. -/
def put (k : κ) (v : ν) : List (κ × ν) → List (κ × ν)
  | [] => [(k, v)]
  | e :: es => if e.1 = k then (k, v) :: es else e :: put k v es

/-- The keys after `put`: a new one comes last, an old one keeps its place. -/
theorem map_fst_put (k : κ) (v : ν) :
    ∀ es : List (κ × ν), (put k v es).map Prod.fst = Distinct.insertLast k (es.map Prod.fst)
  | [] => by simp [put, Distinct.insertLast]
  | e :: es => by
    unfold put
    split
    · next h => simp [Distinct.insertLast, h]
    · next h =>
      rw [List.map_cons, map_fst_put k v es, List.map_cons]
      have hne : k ≠ e.1 := fun hk => h hk.symm
      unfold Distinct.insertLast
      by_cases hk : k ∈ es.map Prod.fst
      · rw [if_pos hk, if_pos (List.mem_cons_of_mem _ hk)]
      · rw [if_neg hk, if_neg (by simpa [hne] using hk), List.cons_append]

theorem lookup_put (k k' : κ) (v : ν) :
    ∀ es : List (κ × ν), (put k v es).lookup k' = if k' = k then some v else es.lookup k'
  | [] => lookup_cons k' (k, v) []
  | e :: es => by
    unfold put
    split
    · next h => rw [lookup_cons, lookup_cons, h]; split <;> rfl
    · next h =>
      rw [lookup_cons, lookup_cons, lookup_put k k' v es]
      by_cases hk : k' = k
      · rw [if_pos hk, if_pos hk, if_neg fun he : k' = e.1 => h (he.symm.trans hk)]
      · rw [if_neg hk, if_neg hk]

/-- A new key comes last. -/
theorem put_of_not_mem {k : κ} (v : ν) :
    ∀ {es : List (κ × ν)}, k ∉ es.map Prod.fst → put k v es = es ++ [(k, v)]
  | [], _ => rfl
  | e :: es, h => by
    obtain ⟨hk, hes⟩ : k ≠ e.1 ∧ k ∉ es.map Prod.fst := by simpa using h
    rw [put, if_neg (Ne.symm hk), put_of_not_mem v hes, List.cons_append]

/-- Entries selected by their keys are found as before. -/
theorem lookup_filter (p : κ → Bool) (k : κ) :
    ∀ es : List (κ × ν), (es.filter (p ·.1)).lookup k = if p k then es.lookup k else none
  | [] => by simp
  | e :: es => by
    have ih := lookup_filter p k es
    rw [List.filter_cons, lookup_cons]
    by_cases he : p e.1
    · rw [if_pos he, lookup_cons, ih]
      by_cases hk : k = e.1
      · rw [if_pos hk, if_pos hk, hk, if_pos he]
      · rw [if_neg hk, if_neg hk]
    · rw [if_neg he, ih]
      by_cases hk : k = e.1
      · rw [hk, if_neg he, if_neg he]
      · rw [if_neg hk]

theorem lookup_map (f : ν → μ) (k : κ) :
    ∀ es : List (κ × ν), (es.map (Prod.map id f)).lookup k = (es.lookup k).map f
  | [] => rfl
  | e :: es => by
    rw [List.map_cons, lookup_cons, lookup_cons, lookup_map f k es, apply_ite (Option.map f)]
    rfl

theorem put_map (f : ν → μ) (k : κ) (v : ν) :
    ∀ es : List (κ × ν), put k (f v) (es.map (Prod.map id f)) = (put k v es).map (Prod.map id f)
  | [] => rfl
  | e :: es => by
    rw [List.map_cons, put, put, put_map f k v es, apply_ite (List.map (Prod.map id f))]
    rfl

end Entries

/-! ## Ordered maps -/

/-- **A map that remembers the order of insertion.** -/
structure OrderedMap (κ : Type u) (ν : Type v) where
  entries : List (κ × ν)
  /-- No two entries share a key. -/
  nodup : (entries.map Prod.fst).Nodup

namespace OrderedMap

/-- The map without entries. -/
def empty : OrderedMap κ ν := ⟨[], List.nodup_nil⟩

instance : Inhabited (OrderedMap κ ν) := ⟨empty⟩

/-- The keys, in the order of insertion. -/
def keys (m : OrderedMap κ ν) : List κ := m.entries.map Prod.fst

/-- The values, in the order of insertion of their keys. -/
def values (m : OrderedMap κ ν) : List ν := m.entries.map Prod.snd

/-- The number of entries. -/
def size (m : OrderedMap κ ν) : Nat := m.entries.length

/-- Whether there are no entries. -/
def isEmpty (m : OrderedMap κ ν) : Bool := m.entries.isEmpty

/-- The value at a position of the order of insertion. -/
def valueAt? (m : OrderedMap κ ν) (i : Nat) : Option ν := m.values[i]?

@[simp] theorem keys_empty : (empty : OrderedMap κ ν).keys = [] := rfl

/-- The map with every value replaced by its image. -/
def map (f : ν → μ) (m : OrderedMap κ ν) : OrderedMap κ μ :=
  ⟨m.entries.map (Prod.map id f), by rw [List.map_map]; exact m.nodup⟩

theorem ext {m n : OrderedMap κ ν} (h : m.entries = n.entries) : m = n := by
  cases m
  cases n
  cases h
  rfl

section Lookup

variable [DecidableEq κ]

/-- The value of a key. -/
def get? (m : OrderedMap κ ν) (k : κ) : Option ν := m.entries.lookup k

/-- Whether a key has a value. -/
def contains (m : OrderedMap κ ν) (k : κ) : Bool := (m.get? k).isSome

/-- The position of a key in the order of insertion. -/
def position? (m : OrderedMap κ ν) (k : κ) : Option Nat := m.keys.idxOf? k

/-- **Give a key a value.**  A key that has one keeps its place. -/
def insert (k : κ) (v : ν) (m : OrderedMap κ ν) : OrderedMap κ ν :=
  ⟨Entries.put k v m.entries, by
    rw [Entries.map_fst_put]; exact Distinct.nodup_insertLast k m.nodup⟩

/-- **Take a key out.**  The others keep their order. -/
def erase (k : κ) (m : OrderedMap κ ν) : OrderedMap κ ν :=
  ⟨m.entries.filter (·.1 ≠ k), m.nodup.sublist (List.filter_sublist.map _)⟩

/-- Whether two maps have the same keys with values related by `same`, in whatever order. -/
def agrees (same : ν → ν → Bool) (m n : OrderedMap κ ν) : Bool :=
  m.size == n.size && m.entries.all fun (k, v) =>
    match n.get? k with
    | none => false
    | some w => same v w

/-- **A key is there when it has a value.** -/
theorem mem_keys_iff (m : OrderedMap κ ν) (k : κ) : k ∈ m.keys ↔ (m.get? k).isSome :=
  Entries.mem_map_fst_iff k m.entries

theorem get?_eq_some_iff (m : OrderedMap κ ν) (k : κ) (v : ν) :
    m.get? k = some v ↔ (k, v) ∈ m.entries :=
  Entries.lookup_eq_some_iff k v m.entries m.nodup

/-- **The values are those of the keys.** -/
theorem mem_values_iff (m : OrderedMap κ ν) (v : ν) : v ∈ m.values ↔ ∃ k, m.get? k = some v := by
  simp [values, get?_eq_some_iff]

/-! ## Lookup after an update -/

@[simp] theorem get?_empty (k : κ) : (empty : OrderedMap κ ν).get? k = none := rfl

theorem get?_insert (m : OrderedMap κ ν) (k k' : κ) (v : ν) :
    (m.insert k v).get? k' = if k' = k then some v else m.get? k' :=
  Entries.lookup_put k k' v m.entries

theorem get?_erase (m : OrderedMap κ ν) (k k' : κ) :
    (m.erase k).get? k' = if k' = k then none else m.get? k' := by
  refine (Entries.lookup_filter (· ≠ k) k' m.entries).trans ?_
  by_cases h : k' = k <;> simp [h, get?]

theorem keys_insert (m : OrderedMap κ ν) (k : κ) (v : ν) :
    (m.insert k v).keys = Distinct.insertLast k m.keys :=
  Entries.map_fst_put k v m.entries

/-! ## Mapping values -/

theorem get?_map (f : ν → μ) (m : OrderedMap κ ν) (k : κ) : (m.map f).get? k = (m.get? k).map f :=
  Entries.lookup_map f k m.entries

/-- **Values are mapped before or after an insertion.** -/
theorem insert_map (f : ν → μ) (m : OrderedMap κ ν) (k : κ) (v : ν) :
    (m.map f).insert k (f v) = (m.insert k v).map f :=
  ext (Entries.put_map f k v m.entries)

end Lookup

end OrderedMap

end TclAtlas
