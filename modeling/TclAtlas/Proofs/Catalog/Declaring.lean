import TclAtlas.Proofs.Catalog.Coherence
import Mathlib.Data.List.Induction

/-!
# Proofs/Catalog/Declaring — in which order the files that declare a namespace are found

The files with a block for a namespace stand in its bucket in the order in which they were linked.
A file that is given an outline again keeps its place among the files of the catalog but is linked
anew, and so comes last in the buckets.

The **recency** of a history lists the files by the time at which each last got an outline.  The
files that declare a namespace are found in this order (`ByRecency`), not in that of the files.
`filesDeclaring_in_file_order_iff` says when the two orders are the same, and which files can be
given their own outline again without a change.
-/

namespace TclAtlas

/-! ## One member under several keys -/

/-- **Adding one member under several keys** puts it last in the buckets of just these. -/
theorem Buckets.bucket_addAll_map {κ : Type u} {α : Type v} [DecidableEq κ] [DecidableEq α]
    (a : α) (k : κ) : ∀ (ks : List κ) (m : Buckets κ α),
      (m.addAll (ks.map (·, a))).bucket k =
        if k ∈ ks then Distinct.insertLast a (m.bucket k) else m.bucket k
  | [], _ => by simp [addAll]
  | k' :: ks, m => by
    have htwice : ∀ l : List α,
        Distinct.insertLast a (Distinct.insertLast a l) = Distinct.insertLast a l :=
      fun l => if_pos (Distinct.mem_insertLast.mpr (Or.inl rfl))
    rw [List.map_cons, addAll, List.foldl_cons, ← addAll, bucket_addAll_map a k ks, bucket_add]
    by_cases hk : k = k'
    · subst hk
      simp [htwice]
    · simp [hk]

/-! ## Lists in the same order -/

theorem filter_ne_eq_self {α : Type u} [DecidableEq α] {a : α} {l : List α} (h : a ∉ l) :
    l.filter (· ≠ a) = l :=
  List.filter_eq_self.mpr fun _ hb => decide_eq_true fun heq => h (heq ▸ hb)

/-- In a list without repetition the members stand at ascending positions. -/
theorem pairwise_idxOf {α : Type u} [DecidableEq α] {l : List α} (h : l.Nodup) :
    l.Pairwise fun a b => l.idxOf a < l.idxOf b := by
  refine List.pairwise_iff_getElem.mpr fun i j hi hj hij => ?_
  rw [h.idxOf_getElem i hi, h.idxOf_getElem j hj]
  exact hij

/-- **Two lists with the same members are the same** exactly when any two members that stand one
after the other in the second do so in the first. -/
theorem eq_iff_of_perm {α : Type u} [DecidableEq α] {l m : List α} (hperm : l.Perm m)
    (hl : l.Nodup) : l = m ↔ ∀ a b, [a, b].Sublist m → [a, b].Sublist l := by
  constructor
  · rintro rfl a b h
    exact h
  · intro h
    have hfirst : l.Pairwise fun a b => [a, b].Sublist l :=
      List.pairwise_iff_forall_sublist.mpr id
    have hsecond : m.Pairwise fun a b => [a, b].Sublist l :=
      List.pairwise_iff_forall_sublist.mpr (h _ _)
    refine hperm.eq_of_pairwise (fun a b _ _ hab hba => ?_) hfirst hsecond
    have hlt := List.pairwise_pair.mp ((pairwise_idxOf hl).sublist hab)
    have hgt := List.pairwise_pair.mp ((pairwise_idxOf hl).sublist hba)
    omega

namespace Catalog

variable {c : Catalog}

/-! ## The files of a namespace after an update -/

/-- Whether the outline of a file declares a namespace. -/
def declaredBy (c : Catalog) (ns : Text) (file : FileId) : Bool :=
  (c.outline? file).any (·.declares ns)

/-- **The files that declare a namespace** are those in its bucket. -/
theorem Coherent.mem_filesDeclaring_iff (h : c.Coherent) (ns : Text) (file : FileId) :
    file ∈ c.filesDeclaring ns ↔ c.declaredBy ns file = true := by
  refine (h.mem_declaring ns file).trans ?_
  simp [declaredBy, Outline.declares, Option.any_eq_true]

theorem declaredBy_apply (c : Catalog) (file : FileId) (o : Outline) (ns : Text) (f : FileId) :
    (c.apply file o).declaredBy ns f = if f = file then o.declares ns else c.declaredBy ns f := by
  rw [declaredBy, outline?_apply]
  split <;> rfl

theorem declaredBy_remove (c : Catalog) (file : FileId) (ns : Text) (f : FileId) :
    (c.remove file).declaredBy ns f = if f = file then false else c.declaredBy ns f := by
  rw [declaredBy, outline?_remove]
  split <;> rfl

/-- **Unlinking a file** leaves the other files that declare a namespace, in their order. -/
theorem Coherent.filesDeclaring_unlink (h : c.Coherent) (file : FileId) (ns : Text) :
    (c.unlink file).filesDeclaring ns = (c.filesDeclaring ns).filter (· ≠ file) := by
  have hmem : ∀ f, f ∈ (c.unlink file).filesDeclaring ns ↔ f ∈ c.filesDeclaring ns ∧ f ≠ file :=
    h.mem_declaring_unlink file ns
  -- where nothing is pruned the file was not there
  have hkept : (c.unlink file).filesDeclaring ns = c.filesDeclaring ns →
      (c.unlink file).filesDeclaring ns = (c.filesDeclaring ns).filter (· ≠ file) := by
    intro heq
    rw [heq, filter_ne_eq_self]
    exact fun hfile => ((hmem file).mp (heq.symm ▸ hfile)).2 rfl
  rcases ho : c.outline? file with _ | o
  · exact hkept (by rw [unlink, ho])
  · have hbucket := Buckets.bucket_pruneAll c.declaring (· ≠ file) o.namespaces ns
    rw [unlink, ho] at hkept ⊢
    split at hbucket
    · exact hbucket
    · exact hkept hbucket

/-- **A file that is given an outline comes last** among those that declare a namespace, or is none
of them any more. -/
theorem Coherent.filesDeclaring_apply (h : c.Coherent) (file : FileId) (o : Outline) (ns : Text) :
    (c.apply file o).filesDeclaring ns =
      (c.filesDeclaring ns).filter (· ≠ file) ++ [file].filter fun _ => o.declares ns := by
  have hbucket := Buckets.bucket_addAll_map file ns o.namespaces (c.unlink file).declaring
  have hunlink := h.filesDeclaring_unlink file ns
  change (c.apply file o).filesDeclaring ns = _ at hbucket
  change (c.unlink file).declaring.bucket ns = _ at hunlink
  rw [hbucket, hunlink]
  by_cases hns : ns ∈ o.namespaces
  · simp [hns, Outline.declares, Distinct.insertLast]
  · simp [hns, Outline.declares]

theorem Coherent.filesDeclaring_remove (h : c.Coherent) (file : FileId) (ns : Text) :
    (c.remove file).filesDeclaring ns = (c.filesDeclaring ns).filter (· ≠ file) :=
  h.filesDeclaring_unlink file ns

end Catalog

/-! ## Recency -/

/-- **The recency of files**: those first whose outline is the oldest. -/
abbrev Recency := List FileId

namespace Recency

/-- The recency after a file is given an outline. -/
def touch (r : Recency) (file : FileId) : Recency := r.filter (· ≠ file) ++ [file]

/-- The recency after several files are given outlines in order. -/
def touchAll (r : Recency) (files : List FileId) : Recency := files.foldl touch r

/-- The recency after an update. -/
def update (r : Recency) : CatalogUpdate → Recency
  | .applyText file _ | .apply file _ => r.touch file
  | .remove file => r.filter (· ≠ file)
  | .ofTexts ts => touchAll [] (ts.map Prod.fst)
  | .ofOutlines os => touchAll [] (os.map Prod.fst)
  | .clear => []

/-- **The recency of a history of updates**, from the empty one on. -/
def ofHistory (us : List CatalogUpdate) : Recency := us.foldl update []

end Recency

namespace Catalog

/-- **The files of a catalog by recency**, and with them those that declare a namespace. -/
structure ByRecency (c : Catalog) (r : Recency) : Prop where
  nodup : r.Nodup
  mem_iff : ∀ file, file ∈ r ↔ (c.outline? file).isSome
  filesDeclaring : ∀ ns, c.filesDeclaring ns = r.filter (c.declaredBy ns)

theorem byRecency_empty : empty.ByRecency [] where
  nodup := List.nodup_nil
  mem_iff _ := by simp
  filesDeclaring _ := rfl

variable {c : Catalog} {r : Recency}

theorem ByRecency.apply (h : c.ByRecency r) (hc : c.Coherent) (file : FileId) (o : Outline) :
    (c.apply file o).ByRecency (r.touch file) where
  nodup := Distinct.nodup_append_singleton (h.nodup.filter _) (by simp)
  mem_iff f := by
    rw [outline?_apply]
    by_cases hf : f = file <;> simp [Recency.touch, h.mem_iff, hf]
  filesDeclaring ns := by
    have hothers : ∀ f ∈ r.filter (· ≠ file),
        (c.apply file o).declaredBy ns f = c.declaredBy ns f := fun f hf =>
      (declaredBy_apply ..).trans (if_neg (of_decide_eq_true (List.mem_filter.mp hf).2))
    rw [hc.filesDeclaring_apply, h.filesDeclaring, Recency.touch, List.filter_append,
      List.filter_congr hothers, List.filter_comm]
    simp [declaredBy_apply, List.filter_cons]

theorem ByRecency.remove (h : c.ByRecency r) (hc : c.Coherent) (file : FileId) :
    (c.remove file).ByRecency (r.filter (· ≠ file)) where
  nodup := h.nodup.filter _
  mem_iff f := by
    rw [outline?_remove]
    by_cases hf : f = file <;> simp [h.mem_iff, hf]
  filesDeclaring ns := by
    have hothers : ∀ f ∈ r.filter (· ≠ file),
        (c.remove file).declaredBy ns f = c.declaredBy ns f := fun f hf =>
      (declaredBy_remove ..).trans (if_neg (of_decide_eq_true (List.mem_filter.mp hf).2))
    rw [hc.filesDeclaring_remove, h.filesDeclaring, List.filter_congr hothers, List.filter_comm]

theorem byRecency_foldl_apply : ∀ (os : List (FileId × Outline)) {c : Catalog} {r : Recency},
    c.ByRecency r → c.Coherent →
      (os.foldl (fun c e => c.apply e.1 e.2) c).ByRecency (r.touchAll (os.map Prod.fst))
  | [], _, _, h, _ => h
  | e :: os, _, _, h, hc => byRecency_foldl_apply os (h.apply hc e.1 e.2) (hc.apply e.1 e.2)

theorem byRecency_ofOutlines (os : List (FileId × Outline)) :
    (ofOutlines os).ByRecency (Recency.touchAll [] (os.map Prod.fst)) :=
  byRecency_foldl_apply os byRecency_empty coherent_empty

theorem ByRecency.update (h : c.ByRecency r) (hc : c.Coherent) :
    ∀ u : CatalogUpdate, (c.update u).ByRecency (r.update u)
  | .applyText file text => h.apply hc file (scanText file text)
  | .apply file o => h.apply hc file o
  | .remove file => h.remove hc file
  | .ofTexts ts => by
    have hfiles : (ts.map fun t => (t.1, scanText t.1 t.2)).map Prod.fst = ts.map Prod.fst := by
      rw [List.map_map]
      rfl
    have hstart := byRecency_ofOutlines (ts.map fun t => (t.1, scanText t.1 t.2))
    rwa [hfiles] at hstart
  | .ofOutlines os => byRecency_ofOutlines os
  | .clear => byRecency_empty

/-- **A history keeps its files by recency.** -/
theorem byRecency_replay (us : List CatalogUpdate) :
    (replay us).ByRecency (Recency.ofHistory us) := by
  induction us using List.reverseRecOn with
  | nil => exact byRecency_empty
  | append_singleton us u ih =>
    rw [replay, List.foldl_concat, Recency.ofHistory, List.foldl_concat]
    exact ih.update (coherent_replay us) u

/-- The recency of a history lists the files of the catalog, in an order of its own. -/
theorem perm_files_ofHistory (us : List CatalogUpdate) :
    (Recency.ofHistory us).Perm (replay us).files := by
  have h := byRecency_replay us
  refine (List.perm_ext_iff_of_nodup h.nodup (replay us).outlines.nodup).mpr fun file => ?_
  exact (h.mem_iff file).trans ((replay us).mem_files_iff file).symm

/-! ## File order -/

/-- **The files that declare a namespace are found in file order** exactly when, of any two of them,
the one that comes first among the files has had its outline for longer. -/
theorem filesDeclaring_eq_filter_files_iff (us : List CatalogUpdate) (ns : Text) :
    (replay us).filesDeclaring ns = (replay us).files.filter ((replay us).declaredBy ns) ↔
      ∀ f g, (replay us).declaredBy ns f = true → (replay us).declaredBy ns g = true →
        [f, g].Sublist (replay us).files → [f, g].Sublist (Recency.ofHistory us) := by
  have h := byRecency_replay us
  rw [h.filesDeclaring,
    eq_iff_of_perm ((perm_files_ofHistory us).filter _) (h.nodup.filter _)]
  constructor
  · intro hpairs f g hf hg hfg
    refine (hpairs f g ?_).trans List.filter_sublist
    simpa [hf, hg] using hfg.filter ((replay us).declaredBy ns)
  · intro hpairs f g hfg
    have hmem : ∀ e ∈ [f, g], (replay us).declaredBy ns e = true := fun e he =>
      (List.mem_filter.mp (hfg.subset he)).2
    obtain ⟨hf, hg⟩ : (replay us).declaredBy ns f = true ∧ (replay us).declaredBy ns g = true := by
      simpa using hmem
    have hlater := hpairs f g hf hg (hfg.trans List.filter_sublist)
    simpa [hf, hg] using hlater.filter ((replay us).declaredBy ns)

/-- **A file that is given its own outline again** leaves the files that declare a namespace in
their order exactly when it is none of them, or the last. -/
theorem Coherent.filesDeclaring_apply_self_iff (h : c.Coherent) {file : FileId} {o : Outline}
    (ho : c.outline? file = some o) (ns : Text) :
    (c.apply file o).filesDeclaring ns = c.filesDeclaring ns ↔
      (o.declares ns = true → (c.filesDeclaring ns).getLast? = some file) := by
  have hmem : file ∈ c.filesDeclaring ns ↔ o.declares ns = true := by
    rw [h.mem_filesDeclaring_iff, declaredBy, ho, Option.any_some]
  rw [h.filesDeclaring_apply]
  by_cases hns : o.declares ns = true
  · simp only [hns, List.filter_true, forall_const]
    constructor
    · intro heq
      rw [← heq, List.getLast?_concat]
    · intro hlast
      obtain ⟨others, hothers⟩ := List.getLast?_eq_some_iff.mp hlast
      have hnodup : (others ++ [file]).Nodup := hothers ▸ h.tidy_declaring.nodup_bucket ns
      have hnew : file ∉ others := fun hfile =>
        (List.nodup_append.mp hnodup).2.2 file hfile file (List.mem_singleton.mpr rfl) rfl
      rw [hothers, List.filter_append, filter_ne_eq_self hnew]
      simp
  · rw [filter_ne_eq_self fun hfile => hns (hmem.mp hfile)]
    simp [hns]

/-- **In which order the files that declare a namespace are found**, whatever the history: they are
the files with a block for it, by recency.  That is the order of the files exactly when, of any two
of them, the one that comes first among the files has had its outline for longer.  Giving a file its
own outline again changes the answer exactly when the file declares the namespace and was not found
last. -/
theorem filesDeclaring_in_file_order_iff (us : List CatalogUpdate) (ns : Text) :
    (replay us).filesDeclaring ns =
      (Recency.ofHistory us).filter ((replay us).declaredBy ns) ∧
    ((replay us).filesDeclaring ns).Perm
      ((replay us).files.filter ((replay us).declaredBy ns)) ∧
    ((replay us).filesDeclaring ns = (replay us).files.filter ((replay us).declaredBy ns) ↔
      ∀ f g, (replay us).declaredBy ns f = true → (replay us).declaredBy ns g = true →
        [f, g].Sublist (replay us).files → [f, g].Sublist (Recency.ofHistory us)) ∧
    ∀ file o, (replay us).outline? file = some o →
      (((replay us).apply file o).filesDeclaring ns = (replay us).filesDeclaring ns ↔
        (o.declares ns = true → ((replay us).filesDeclaring ns).getLast? = some file)) := by
  have h := byRecency_replay us
  refine ⟨h.filesDeclaring ns, ?_, filesDeclaring_eq_filter_files_iff us ns,
    fun file o ho => (coherent_replay us).filesDeclaring_apply_self_iff ho ns⟩
  rw [h.filesDeclaring]
  exact (perm_files_ofHistory us).filter _

/-- The history in which two files declare a namespace and the first is scanned again. -/
def rescanned : List CatalogUpdate :=
  let text : Text := "namespace eval a \x7b\x7d".toList
  [.applyText ⟨0⟩ text, .applyText ⟨1⟩ text, .applyText ⟨0⟩ text]

/-- The file scanned last is found last, and scanning it once more changes nothing. -/
theorem filesDeclaring_in_file_order_iff_rescanned :
    let o := scanText ⟨0⟩ "namespace eval a \x7b\x7d".toList
    (replay rescanned).outline? ⟨0⟩ = some o ∧
      ((replay rescanned).apply ⟨0⟩ o).filesDeclaring ['a'] =
        (replay rescanned).filesDeclaring ['a'] := by
  intro o
  have ho : (replay rescanned).outline? ⟨0⟩ = some o := rfl
  obtain ⟨-, -, -, hagain⟩ := filesDeclaring_in_file_order_iff rescanned ['a']
  exact ⟨ho, (hagain ⟨0⟩ o ho).mpr fun _ => by decide +kernel⟩

/-- **The files that declare a namespace are not always found in file order**, and giving a file its
own outline again may change the order in which they are found. -/
theorem not_filesDeclaring_in_file_order :
    (¬ ∀ us ns, (replay us).filesDeclaring ns =
      (replay us).files.filter ((replay us).declaredBy ns)) ∧
    ¬ ∀ us file o ns, (replay us).outline? file = some o →
      ((replay us).apply file o).filesDeclaring ns = (replay us).filesDeclaring ns := by
  constructor
  · intro h
    exact absurd (h rescanned ['a']) (by decide +kernel)
  · intro h
    exact absurd (h (rescanned.take 2) ⟨0⟩ _ ['a'] rfl) (by decide +kernel)

end Catalog

end TclAtlas
