import TclAtlas.Ledger
import Mathlib.Order.Basic
import Mathlib.Order.Nat

/-!
# Proofs/Ledger/Effects — what a commit does to stamps and outlines

A commit touches one file, a rebuild every file that is not newer than it.  For each of them the
stamp and the outline of a file afterwards are given in terms of those before: `stamp?_commit`,
`outline?_commit`, `stamp?_commitRebuild`, `outline?_commitRebuild`.
-/

namespace TclAtlas

/-! ## Looking up what was selected -/

namespace Entries

variable {κ : Type u} {ν : Type v} [DecidableEq κ]

/-- Entries made from keys are found under these keys. -/
theorem lookup_filterMap (g : κ → Option ν) (k : κ) (ks : List κ) :
    (ks.filterMap fun k => (g k).map (k, ·)).lookup k = if k ∈ ks then g k else none := by
  induction ks with
  | nil => simp
  | cons k' ks ih =>
    rw [List.filterMap_cons]
    rcases h : g k' with _ | v
    · by_cases hk : k = k'
      · subst hk
        simpa [h] using ih
      · simpa [hk] using ih
    · simp only [Option.map_some, lookup_cons, ih]
      by_cases hk : k = k'
      · subst hk
        simp [h]
      · simp [hk]

end Entries

namespace Catalog

/-- **Of several outlines for a file the last one counts.** -/
theorem outline?_foldl_apply (c : Catalog) (os : List (FileId × Outline)) (file : FileId) :
    (os.foldl (fun c p => c.apply p.1 p.2) c).outline? file =
      (os.reverse.lookup file).or (c.outline? file) := by
  induction os generalizing c with
  | nil => simp
  | cons p os ih =>
    rw [List.foldl_cons, ih, outline?_apply, List.reverse_cons, List.lookup_append,
      Entries.lookup_cons, List.lookup_nil]
    rcases os.reverse.lookup file with _ | o
    · by_cases h : file = p.1 <;> simp [h]
    · simp

theorem outline?_ofOutlines (os : List (FileId × Outline)) (file : FileId) :
    (ofOutlines os).outline? file = os.reverse.lookup file :=
  (outline?_foldl_apply empty os file).trans (by simp)

end Catalog

namespace Ledger

/-- **The stamp of the last commit of a file.** -/
def stamp? (l : Ledger) (file : FileId) : Option Nat := l.committed.get? file

/-! ## Commits of one file -/

theorem stamp?_commit (l : Ledger) (t : UpdateTicket) (o : Option Outline) (file : FileId) :
    (l.commit t o).2.stamp? file =
      if file = t.file ∧ l.isStale t = false then some t.stamp else l.stamp? file := by
  rcases h : l.isStale t with _ | _
  · rw [commit_of_not_stale h, stamp?, OrderedMap.get?_insert]
    simp [stamp?]
  · rw [commit_of_stale h]
    simp

theorem outline?_commit (l : Ledger) (t : UpdateTicket) (o : Option Outline) (file : FileId) :
    (l.commit t o).2.catalog.outline? file =
      if file = t.file ∧ l.isStale t = false then o else l.catalog.outline? file := by
  rcases h : l.isStale t with _ | _
  · rw [commit_of_not_stale h]
    rcases o with _ | o
    · simp [Catalog.outline?_remove]
    · simp [Catalog.outline?_apply]
  · rw [commit_of_stale h]
    simp

/-- A commit changes its own file only. -/
theorem outline?_commit_of_ne (l : Ledger) {t : UpdateTicket} {file : FileId} (h : file ≠ t.file)
    (o : Option Outline) : (l.commit t o).2.catalog.outline? file = l.catalog.outline? file := by
  rw [outline?_commit, if_neg fun hown => h hown.1]

/-- **A commit that is not done** changes no outline. -/
theorem outline?_commit_of_not_done {l : Ledger} {t : UpdateTicket} {o : Option Outline}
    (h : (l.commit t o).1 = false) (file : FileId) :
    (l.commit t o).2.catalog.outline? file = l.catalog.outline? file := by
  rcases hstale : l.isStale t with _ | _
  · rw [commit_of_not_stale hstale, Bool.or_eq_false_iff] at h
    obtain rfl : o = none := Option.not_isSome_iff_eq_none.mp (Bool.eq_false_iff.mp h.1)
    have habsent : l.catalog.outline? t.file = none :=
      Option.not_isSome_iff_eq_none.mp (Bool.eq_false_iff.mp h.2)
    rw [outline?_commit]
    split
    · next hown => rw [hown.1, habsent]
    · rfl
  · rw [commit_of_stale hstale]

@[simp] theorem nextStamp_commit (l : Ledger) (t : UpdateTicket) (o : Option Outline) :
    (l.commit t o).2.nextStamp = l.nextStamp := by
  rcases h : l.isStale t with _ | _
  · rw [commit_of_not_stale h]
  · rw [commit_of_stale h]

@[simp] theorem registry_commit (l : Ledger) (t : UpdateTicket) (o : Option Outline) :
    (l.commit t o).2.registry = l.registry := by
  rcases h : l.isStale t with _ | _
  · rw [commit_of_not_stale h]
  · rw [commit_of_stale h]

@[simp] theorem generation_commit (l : Ledger) (t : UpdateTicket) (o : Option Outline) :
    (l.commit t o).2.generation = l.generation := by
  rcases h : l.isStale t with _ | _
  · rw [commit_of_not_stale h]
  · rw [commit_of_stale h]

/-! ## Several commits -/

/-- **Of several commits the changed files are answered.** -/
theorem mem_commitAll_of_ne {file : FileId} : ∀ (us : List (UpdateTicket × Option Outline))
    (l : Ledger), (l.commitAll us).2.catalog.outline? file ≠ l.catalog.outline? file →
      file ∈ (l.commitAll us).1
  | [], _, h => absurd rfl h
  | (t, o) :: us, l, h => by
    have hall : (l.commitAll ((t, o) :: us)).1 = if (l.commit t o).1 then
        t.file :: ((l.commit t o).2.commitAll us).1 else ((l.commit t o).2.commitAll us).1 := rfl
    rw [hall]
    by_cases hlater : ((l.commit t o).2.commitAll us).2.catalog.outline? file =
        (l.commit t o).2.catalog.outline? file
    · have hnow : (l.commit t o).2.catalog.outline? file ≠ l.catalog.outline? file :=
        fun heq => h (hlater.trans heq)
      have hfile : file = t.file := by
        by_contra hne
        exact hnow (l.outline?_commit_of_ne hne o)
      have hdone : (l.commit t o).1 = true := by
        by_contra hnot
        exact hnow (outline?_commit_of_not_done (Bool.eq_false_iff.mpr hnot) file)
      rw [if_pos hdone, hfile]
      exact List.mem_cons_self
    · have hmem := mem_commitAll_of_ne us (l.commit t o).2 hlater
      split
      · exact List.mem_cons_of_mem _ hmem
      · exact hmem

theorem generation_commitAll : ∀ (us : List (UpdateTicket × Option Outline)) (l : Ledger),
    (l.commitAll us).2.generation = l.generation
  | [], _ => rfl
  | (t, o) :: us, l =>
    (generation_commitAll us (l.commit t o).2).trans (l.generation_commit t o)

theorem registry_commitAll : ∀ (us : List (UpdateTicket × Option Outline)) (l : Ledger),
    (l.commitAll us).2.registry = l.registry
  | [], _ => rfl
  | (t, o) :: us, l => (registry_commitAll us (l.commit t o).2).trans (l.registry_commit t o)

/-! ## Rebuilds -/

/-- **A void ticket changes nothing.** -/
theorem commitRebuild_of_ne {l : Ledger} {t : RebuildTicket} (h : t.generation ≠ l.generation)
    (os : List (FileId × Outline)) : l.commitRebuild t os = (false, l) := if_pos h

theorem commitRebuild_fst (l : Ledger) (t : RebuildTicket) (os : List (FileId × Outline)) :
    (l.commitRebuild t os).1 = decide (t.generation = l.generation) := by
  rw [commitRebuild]
  split
  · next h => exact (decide_eq_false h).symm
  · next h => exact (decide_eq_true (not_not.mp h)).symm

theorem registry_commitRebuild (l : Ledger) (t : RebuildTicket) (os : List (FileId × Outline)) :
    (l.commitRebuild t os).2.registry = l.registry := by
  rw [commitRebuild]
  split <;> rfl

/-- The value given to several keys, one after the other. -/
theorem get?_foldl_insert {κ : Type u} {ν : Type v} [DecidableEq κ] (v : ν) (ks : List κ)
    (m : OrderedMap κ ν) (k : κ) :
    (ks.foldl (fun m k => m.insert k v) m).get? k = if k ∈ ks then some v else m.get? k := by
  induction ks generalizing m with
  | nil => simp
  | cons k' ks ih =>
    rw [List.foldl_cons, ih, OrderedMap.get?_insert]
    by_cases h : k = k' <;> simp [h]

/-- **A rebuild stamps the files that it lists or drops**, except those newer than itself. -/
theorem stamp?_commitRebuild {l : Ledger} {t : RebuildTicket} (h : t.generation = l.generation)
    (os : List (FileId × Outline)) (file : FileId) :
    (l.commitRebuild t os).2.stamp? file =
      if file ∉ l.newerThan t ∧ (file ∈ os.map Prod.fst ∨ file ∈ l.catalog.files) then
        some t.started
      else l.stamp? file := by
  rw [commitRebuild, if_neg (not_not.mpr h), stamp?, get?_foldl_insert]
  refine if_congr ?_ rfl rfl
  simp only [List.mem_append, List.mem_map, List.mem_filter, decide_eq_true_eq]
  constructor
  · rintro (⟨p, ⟨hp, hn⟩, rfl⟩ | ⟨hf, hn⟩)
    · exact ⟨hn, Or.inl ⟨p, hp, rfl⟩⟩
    · exact ⟨hn, Or.inr hf⟩
  · rintro ⟨hn, ⟨p, hp, rfl⟩ | hf⟩
    · exact Or.inl ⟨p, ⟨hp, hn⟩, rfl⟩
    · exact Or.inr ⟨hf, hn⟩

/-- **A rebuild replaces all outlines** by the last ones listed, except those of files newer than
itself. -/
theorem outline?_commitRebuild {l : Ledger} {t : RebuildTicket} (h : t.generation = l.generation)
    (os : List (FileId × Outline)) (file : FileId) :
    (l.commitRebuild t os).2.catalog.outline? file =
      if file ∈ l.newerThan t then l.catalog.outline? file else os.reverse.lookup file := by
  have hlisted : ((os.filter fun p => p.1 ∉ l.newerThan t).reverse).lookup file =
      if file ∉ l.newerThan t then os.reverse.lookup file else none := by
    rw [← List.filter_reverse]
    simpa using Entries.lookup_filter (fun f => decide (f ∉ l.newerThan t)) file os.reverse
  have hkept : ((l.newerThan t).filterMap fun f =>
      (l.catalog.outline? f).map (f, ·)).reverse.lookup file =
        if file ∈ l.newerThan t then l.catalog.outline? file else none := by
    rw [← List.filterMap_reverse, Entries.lookup_filterMap]
    simp
  rw [commitRebuild, if_neg (not_not.mpr h)]
  refine (Catalog.outline?_ofOutlines _ file).trans ?_
  rw [List.reverse_append, List.lookup_append, hkept]
  refine (congrArg _ hlisted).trans ?_
  by_cases hf : file ∈ l.newerThan t <;> simp [hf]

end Ledger

end TclAtlas
