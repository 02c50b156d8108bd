import TclAtlas.Ordered.Map

/-!
# Ordered/Buckets — maps from a key to several members

A map into lists keeps a **bucket** of members for each key.  Adding a member makes the bucket of
its key if need be; pruning a key keeps some members of its bucket and drops the bucket with its
last member.  So no bucket is ever empty and none holds a member twice (`Tidy`), and the keys are
exactly those under which something is kept (`Tidy.mem_keys_iff`).

What the buckets hold after several additions or prunings is in `mem_bucket_addAll` and
`bucket_pruneAll`.
-/

namespace TclAtlas

/-- **Buckets**: lists of members under keys. -/
abbrev Buckets (κ : Type u) (α : Type v) := OrderedMap κ (List α)

namespace Buckets

variable {κ : Type u} {α : Type v} [DecidableEq κ]

/-- **The members under a key.** -/
def bucket (m : Buckets κ α) (k : κ) : List α := (m.get? k).getD []

/-- The buckets with the members under one key restricted to those that are kept. -/
def prune (m : Buckets κ α) (k : κ) (keep : α → Bool) : Buckets κ α :=
  match m.get? k with
  | none => m
  | some as =>
    match as.filter keep with
    | [] => m.erase k
    | rest => m.insert k rest

/-- The buckets with several keys pruned. -/
def pruneAll (m : Buckets κ α) (ks : List κ) (keep : α → Bool) : Buckets κ α :=
  ks.foldl (fun m k => m.prune k keep) m

/-- **No bucket is empty or holds a member twice.** -/
def Tidy (m : Buckets κ α) : Prop := ∀ k as, m.get? k = some as → as ≠ [] ∧ as.Nodup

theorem tidy_empty : Tidy (.empty : Buckets κ α) := by
  intro k as h
  simp at h

theorem Tidy.nodup_bucket {m : Buckets κ α} (h : m.Tidy) (k : κ) : (m.bucket k).Nodup := by
  unfold bucket
  cases hk : m.get? k with
  | none => exact List.nodup_nil
  | some as => exact (h k as hk).2

/-- **A key is there when something is kept under it.** -/
theorem Tidy.mem_keys_iff {m : Buckets κ α} (h : m.Tidy) (k : κ) :
    k ∈ m.keys ↔ m.bucket k ≠ [] := by
  rw [OrderedMap.mem_keys_iff]
  unfold bucket
  cases hk : m.get? k with
  | none => simp
  | some as => simpa using (h k as hk).1

theorem Tidy.mem_keys_iff_exists {m : Buckets κ α} (h : m.Tidy) (k : κ) :
    k ∈ m.keys ↔ ∃ a, a ∈ m.bucket k := by
  rw [h.mem_keys_iff]
  exact ⟨List.exists_mem_of_ne_nil _, fun ⟨_, ha⟩ => List.ne_nil_of_mem ha⟩

/-! ## Pruning -/

theorem bucket_prune (m : Buckets κ α) (k k' : κ) (keep : α → Bool) :
    (m.prune k keep).bucket k' =
      if k' = k then (m.bucket k).filter keep else m.bucket k' := by
  unfold prune bucket
  cases hk : m.get? k with
  | none =>
    by_cases h : k' = k
    · simp [h, hk]
    · simp [h]
  | some as =>
    cases hf : as.filter keep with
    | nil => by_cases h : k' = k <;> simp [OrderedMap.get?_erase, h, hf]
    | cons b bs => by_cases h : k' = k <;> simp [OrderedMap.get?_insert, h, hf]

theorem Tidy.prune {m : Buckets κ α} (hm : m.Tidy) (k : κ) (keep : α → Bool) :
    (m.prune k keep).Tidy := by
  intro k' as has
  unfold Buckets.prune at has
  cases hk : m.get? k with
  | none => exact hm k' as (by simpa [hk] using has)
  | some bs =>
    have hnodup : (bs.filter keep).Nodup := (hm k bs hk).2.filter keep
    cases hf : bs.filter keep with
    | nil =>
      have has' : ¬ k' = k ∧ m.get? k' = some as := by
        simpa [hk, hf, OrderedMap.get?_erase] using has
      exact hm k' as has'.2
    | cons c cs =>
      simp only [hk, hf, OrderedMap.get?_insert] at has
      split at has
      · obtain rfl : c :: cs = as := Option.some.inj has
        exact ⟨List.cons_ne_nil c cs, hf ▸ hnodup⟩
      · exact hm k' as has

/-- **Pruning several keys** restricts the buckets of just these. -/
theorem bucket_pruneAll (m : Buckets κ α) (keep : α → Bool) (ks : List κ) (k : κ) :
    (m.pruneAll ks keep).bucket k =
      if k ∈ ks then (m.bucket k).filter keep else m.bucket k := by
  induction ks generalizing m with
  | nil => simp [pruneAll]
  | cons k' ks ih =>
    rw [show m.pruneAll (k' :: ks) keep = (m.prune k' keep).pruneAll ks keep from rfl, ih,
      bucket_prune]
    by_cases hk : k = k'
    · subst hk
      simp [List.filter_filter]
    · simp [hk]

theorem Tidy.pruneAll {m : Buckets κ α} (hm : m.Tidy) (ks : List κ) (keep : α → Bool) :
    (m.pruneAll ks keep).Tidy := by
  induction ks generalizing m with
  | nil => exact hm
  | cons k ks ih => exact ih (hm.prune k keep)

/-! ## Adding -/

variable [DecidableEq α]

/-- The buckets with one more member under a key. -/
def add (m : Buckets κ α) (k : κ) (a : α) : Buckets κ α :=
  m.insert k (Distinct.insertLast a (m.bucket k))

/-- The buckets with several members added under their keys. -/
def addAll (m : Buckets κ α) (ps : List (κ × α)) : Buckets κ α :=
  ps.foldl (fun m p => m.add p.1 p.2) m

theorem bucket_add (m : Buckets κ α) (k k' : κ) (a : α) :
    (m.add k a).bucket k' =
      if k' = k then Distinct.insertLast a (m.bucket k) else m.bucket k' := by
  by_cases h : k' = k <;> simp [bucket, add, OrderedMap.get?_insert, h]

theorem Tidy.add {m : Buckets κ α} (hm : m.Tidy) (k : κ) (a : α) : (m.add k a).Tidy := by
  intro k' as has
  rw [Buckets.add, OrderedMap.get?_insert] at has
  split at has
  · obtain rfl : Distinct.insertLast a (m.bucket k) = as := Option.some.inj has
    have ha : a ∈ Distinct.insertLast a (m.bucket k) := Distinct.mem_insertLast.mpr (Or.inl rfl)
    exact ⟨List.ne_nil_of_mem ha, Distinct.nodup_insertLast a (hm.nodup_bucket k)⟩
  · exact hm k' as has

/-- **Adding several members** puts each in the bucket of its key. -/
theorem mem_bucket_addAll (m : Buckets κ α) (ps : List (κ × α)) (k : κ) (a : α) :
    a ∈ (m.addAll ps).bucket k ↔ a ∈ m.bucket k ∨ (k, a) ∈ ps := by
  induction ps generalizing m with
  | nil => simp [addAll]
  | cons p ps ih =>
    rw [show m.addAll (p :: ps) = (m.add p.1 p.2).addAll ps from rfl, ih, bucket_add,
      List.mem_cons, Prod.ext_iff]
    by_cases hk : k = p.1
    · subst hk
      simp [or_assoc, or_comm, or_left_comm]
    · simp [hk]

theorem Tidy.addAll {m : Buckets κ α} (hm : m.Tidy) (ps : List (κ × α)) : (m.addAll ps).Tidy := by
  induction ps generalizing m with
  | nil => exact hm
  | cons p ps ih => exact ih (hm.add p.1 p.2)

end Buckets

end TclAtlas
