import TclAtlas.Catalog.Lookup
import TclAtlas.Proofs.Catalog.Names
import Mathlib.Data.List.Perm.Basic

/-!
# Proofs/Catalog/Coherence — the tables of a catalog say what its outlines say

The tables are kept by hand: linking enters what an outline contributes, unlinking prunes what the
old one contributed.  A catalog is **coherent** when its tables hold exactly what the outlines
contribute, in tidy buckets.  Every update keeps a catalog coherent, because unlinking a file leaves
exactly the contributions of the others (`Coherent.mem_slots_unlink`) and linking adds exactly its
own (`mem_slots_link`).

So whatever the history of a catalog, its tables are those the outlines determine, and its sizes are
those recounted from the outlines (`tables_replay`).
-/

namespace TclAtlas

/-! ## Histories of a catalog -/

/-- **An update of a catalog.** -/
inductive CatalogUpdate
  | applyText (file : FileId) (text : Text)
  | apply (file : FileId) (o : Outline)
  | remove (file : FileId)
  /-- Start anew from texts. -/
  | ofTexts (ts : List (FileId × Text))
  /-- Start anew from outlines. -/
  | ofOutlines (os : List (FileId × Outline))
  | clear

namespace Catalog

/-- The catalog after an update. -/
def update (c : Catalog) : CatalogUpdate → Catalog
  | .applyText file text => c.applyText file text
  | .apply file o => c.apply file o
  | .remove file => c.remove file
  | .ofTexts ts => .ofTexts ts
  | .ofOutlines os => .ofOutlines os
  | .clear => .empty

/-- **The catalog after a history of updates**, from the empty one on. -/
def replay (us : List CatalogUpdate) : Catalog := us.foldl update empty

/-! ## Coherence -/

/-- **The tables hold what the outlines contribute**, and nothing else. -/
structure Coherent (c : Catalog) : Prop where
  tidy_table : Buckets.Tidy c.table
  tidy_declaring : c.declaring.Tidy
  mem_slots : ∀ k s, s ∈ c.table.slots k ↔
    ∃ o, c.outline? s.file = some o ∧ (k, s.index) ∈ o.terms
  mem_declaring : ∀ ns file, file ∈ c.declaring.bucket ns ↔
    ∃ o, c.outline? file = some o ∧ ns ∈ o.namespaces

theorem coherent_empty : Coherent empty where
  tidy_table := Buckets.tidy_empty
  tidy_declaring := Buckets.tidy_empty
  mem_slots k s := by
    change s ∈ [] ↔ ∃ o, none = some o ∧ _
    simp
  mem_declaring ns file := by
    change file ∈ [] ↔ ∃ o, none = some o ∧ _
    simp

/-! ## Unlinking and linking -/

/-- **Unlinking leaves the slots of the other files** — the file's own are all under terms of its
outline, so pruning these terms finds them. -/
theorem Coherent.mem_slots_unlink {c : Catalog} (h : c.Coherent) (file : FileId) (k : Term)
    (s : Slot) :
    s ∈ (c.unlink file).table.slots k ↔ s ∈ c.table.slots k ∧ s.file ≠ file := by
  rw [unlink]
  rcases ho : c.outline? file with _ | o
  · refine ⟨fun hs => ⟨hs, ?_⟩, And.left⟩
    rintro rfl
    obtain ⟨o, hf, -⟩ := (h.mem_slots k s).mp hs
    exact absurd (ho.symm.trans hf) (by simp)
  · have hown : s ∈ c.table.slots k → s.file = file → k ∈ o.terms.map Prod.fst := by
      rintro hs rfl
      obtain ⟨o', ho', hk⟩ := (h.mem_slots k s).mp hs
      obtain rfl : o = o' := Option.some.inj (ho.symm.trans ho')
      exact List.mem_map.mpr ⟨_, hk, rfl⟩
    change s ∈ Buckets.bucket (Buckets.pruneAll c.table _ _) k ↔ _
    rw [Buckets.bucket_pruneAll]
    split
    · rw [List.mem_filter]
      simp [Table.slots]
    · next hk => exact ⟨fun hs => ⟨hs, fun hf => hk (hown hs hf)⟩, And.left⟩

/-- **Unlinking leaves the other files declared.** -/
theorem Coherent.mem_declaring_unlink {c : Catalog} (h : c.Coherent) (file : FileId) (ns : Text)
    (f : FileId) :
    f ∈ (c.unlink file).declaring.bucket ns ↔ f ∈ c.declaring.bucket ns ∧ f ≠ file := by
  rw [unlink]
  rcases ho : c.outline? file with _ | o
  · refine ⟨fun hf => ⟨hf, ?_⟩, And.left⟩
    rintro rfl
    obtain ⟨o, hf', -⟩ := (h.mem_declaring ns f).mp hf
    exact absurd (ho.symm.trans hf') (by simp)
  · have hown : f ∈ c.declaring.bucket ns → f = file → ns ∈ o.namespaces := by
      rintro hf rfl
      obtain ⟨o', ho', hns⟩ := (h.mem_declaring ns f).mp hf
      obtain rfl : o = o' := Option.some.inj (ho.symm.trans ho')
      exact hns
    change f ∈ (c.declaring.pruneAll _ _).bucket ns ↔ _
    rw [Buckets.bucket_pruneAll]
    split
    · rw [List.mem_filter]
      simp
    · next hns => exact ⟨fun hf => ⟨hf, fun heq => hns (hown hf heq)⟩, And.left⟩

/-- **Linking adds the slots of the outline.** -/
theorem mem_slots_link (c : Catalog) (file : FileId) (o : Outline) (k : Term) (s : Slot) :
    s ∈ (c.link file o).table.slots k ↔
      s ∈ c.table.slots k ∨ s.file = file ∧ (k, s.index) ∈ o.terms := by
  obtain ⟨f, i⟩ := s
  have hmap : (k, (⟨f, i⟩ : Slot)) ∈ o.terms.map (fun p => (p.1, (⟨file, p.2⟩ : Slot))) ↔
      f = file ∧ (k, i) ∈ o.terms := by
    constructor
    · intro hs
      obtain ⟨⟨k', j⟩, hk, heq⟩ := List.mem_map.mp hs
      obtain ⟨rfl, rfl, rfl⟩ : k' = k ∧ file = f ∧ j = i := by simpa using heq
      exact ⟨rfl, hk⟩
    · rintro ⟨rfl, hk⟩
      exact List.mem_map.mpr ⟨_, hk, rfl⟩
  rw [← hmap]
  exact Buckets.mem_bucket_addAll c.table _ k ⟨f, i⟩

/-- **Linking adds the file to the namespaces of the outline.** -/
theorem mem_declaring_link (c : Catalog) (file : FileId) (o : Outline) (ns : Text) (f : FileId) :
    f ∈ (c.link file o).declaring.bucket ns ↔
      f ∈ c.declaring.bucket ns ∨ f = file ∧ ns ∈ o.namespaces := by
  have hmap : (ns, f) ∈ o.namespaces.map (·, file) ↔ f = file ∧ ns ∈ o.namespaces := by
    constructor
    · intro hf
      obtain ⟨ns', hns, heq⟩ := List.mem_map.mp hf
      obtain ⟨rfl, rfl⟩ : ns' = ns ∧ file = f := by simpa using heq
      exact ⟨rfl, hns⟩
    · rintro ⟨rfl, hns⟩
      exact List.mem_map.mpr ⟨_, hns, rfl⟩
  rw [← hmap]
  exact Buckets.mem_bucket_addAll c.declaring _ ns f

theorem Coherent.tidy_unlink {c : Catalog} (h : c.Coherent) (file : FileId) :
    Buckets.Tidy (c.unlink file).table ∧ (c.unlink file).declaring.Tidy := by
  rw [unlink]
  split
  · exact ⟨h.tidy_table, h.tidy_declaring⟩
  · exact ⟨h.tidy_table.pruneAll _ _, h.tidy_declaring.pruneAll _ _⟩

/-! ## Updates keep a catalog coherent -/

/-- **Giving a file an outline keeps a catalog coherent**, whether it had one or not. -/
theorem Coherent.apply {c : Catalog} (h : c.Coherent) (file : FileId) (o : Outline) :
    (c.apply file o).Coherent where
  tidy_table := (h.tidy_unlink file).1.addAll _
  tidy_declaring := (h.tidy_unlink file).2.addAll _
  mem_slots k s := by
    rw [outline?_apply]
    refine (mem_slots_link _ file o k s).trans ?_
    rw [h.mem_slots_unlink, h.mem_slots]
    by_cases hs : s.file = file <;> simp [hs]
  mem_declaring ns f := by
    rw [outline?_apply]
    refine (mem_declaring_link _ file o ns f).trans ?_
    rw [h.mem_declaring_unlink, h.mem_declaring]
    by_cases hf : f = file <;> simp [hf]

/-- **Taking a file out keeps a catalog coherent.** -/
theorem Coherent.remove {c : Catalog} (h : c.Coherent) (file : FileId) :
    (c.remove file).Coherent where
  tidy_table := (h.tidy_unlink file).1
  tidy_declaring := (h.tidy_unlink file).2
  mem_slots k s := by
    rw [outline?_remove]
    refine (h.mem_slots_unlink file k s).trans ?_
    rw [h.mem_slots]
    by_cases hs : s.file = file <;> simp [hs]
  mem_declaring ns f := by
    rw [outline?_remove]
    refine (h.mem_declaring_unlink file ns f).trans ?_
    rw [h.mem_declaring]
    by_cases hf : f = file <;> simp [hf]

theorem coherent_ofOutlines (os : List (FileId × Outline)) : (ofOutlines os).Coherent :=
  List.foldlRecOn os _ coherent_empty fun _ h p _ => h.apply p.1 p.2

theorem Coherent.update {c : Catalog} (h : c.Coherent) : ∀ u, (c.update u).Coherent
  | .applyText file text => h.apply file (scanText file text)
  | .apply file o => h.apply file o
  | .remove file => h.remove file
  | .ofTexts _ => coherent_ofOutlines _
  | .ofOutlines os => coherent_ofOutlines os
  | .clear => coherent_empty

/-- **Every catalog with a history is coherent.** -/
theorem coherent_replay (us : List CatalogUpdate) : (replay us).Coherent :=
  List.foldlRecOn us _ coherent_empty fun _ h u _ => h.update u

/-! ## Sizes -/

/-- Two lists without repetition and with the same members are equally long. -/
theorem length_eq_of_nodup {α : Type u} {l m : List α} (hl : l.Nodup) (hm : m.Nodup)
    (h : ∀ a, a ∈ l ↔ a ∈ m) : l.length = m.length :=
  ((List.perm_ext_iff_of_nodup hl hm).mpr h).length_eq

/-- **A term is in the table exactly when an outline carries its name.** -/
theorem Coherent.mem_table_keys_iff {c : Catalog} (h : c.Coherent) (a : Aspect) (n : Text) :
    (⟨a, n⟩ : Term) ∈ c.table.keys ↔ n ∈ c.outlines.values.flatMap (·.names a) := by
  have hkey : (⟨a, n⟩ : Term) ∈ c.table.keys ↔ ∃ s, s ∈ c.table.slots ⟨a, n⟩ :=
    h.tidy_table.mem_keys_iff_exists _
  simp only [hkey, h.mem_slots, Outline.mem_terms_iff, List.mem_flatMap,
    OrderedMap.mem_values_iff, Outline.mem_names_iff]
  constructor
  · rintro ⟨s, o, ho, hn⟩
    exact ⟨o, ⟨s.file, ho⟩, s.index, hn⟩
  · rintro ⟨o, ⟨file, ho⟩, i, hn⟩
    exact ⟨⟨file, i⟩, o, ho, hn⟩

/-- **The names with an aspect are counted without repetition.** -/
theorem Coherent.count_eq {c : Catalog} (h : c.Coherent) (a : Aspect) :
    c.table.count a = (c.outlines.values.flatMap (·.names a)).dedup.length := by
  have hnodup : ((c.table.keys.filter (·.aspect = a)).map Term.name).Nodup := by
    refine (c.table.nodup.filter _).map_on fun k hk k' hk' heq => ?_
    have ha : k.aspect = a := by simpa using (List.mem_filter.mp hk).2
    have ha' : k'.aspect = a := by simpa using (List.mem_filter.mp hk').2
    rcases k with ⟨b, n⟩
    rcases k' with ⟨b', n'⟩
    simp_all
  rw [Table.count, List.countP_eq_length_filter, ← List.length_map Term.name]
  refine length_eq_of_nodup hnodup (List.nodup_dedup _) fun n => ?_
  rw [List.mem_dedup, ← h.mem_table_keys_iff, List.mem_map]
  constructor
  · rintro ⟨⟨b, n'⟩, hmem, rfl⟩
    obtain ⟨hk, hb⟩ := List.mem_filter.mp hmem
    obtain rfl : b = a := by simpa using hb
    exact hk
  · exact fun hn => ⟨_, List.mem_filter.mpr ⟨hn, by simp⟩, rfl⟩

/-- **A namespace is declared** exactly when an outline declares it. -/
theorem Coherent.mem_declaring_keys_iff {c : Catalog} (h : c.Coherent) (ns : Text) :
    ns ∈ c.declaring.keys ↔ ns ∈ c.outlines.values.flatMap Outline.namespaces := by
  refine (h.tidy_declaring.mem_keys_iff_exists ns).trans ?_
  simp only [h.mem_declaring, List.mem_flatMap, OrderedMap.mem_values_iff]
  constructor
  · rintro ⟨file, o, ho, hns⟩
    exact ⟨o, ⟨file, ho⟩, hns⟩
  · rintro ⟨o, ⟨file, ho⟩, hns⟩
    exact ⟨file, o, ho, hns⟩

/-- **The declared namespaces are counted without repetition.** -/
theorem Coherent.size_declaring {c : Catalog} (h : c.Coherent) :
    c.declaring.size = (c.outlines.values.flatMap Outline.namespaces).dedup.length := by
  rw [show c.declaring.size = c.declaring.keys.length from (List.length_map Prod.fst).symm]
  refine length_eq_of_nodup c.declaring.nodup (List.nodup_dedup _) fun ns => ?_
  rw [List.mem_dedup]
  exact h.mem_declaring_keys_iff ns

/-- **The sizes of a coherent catalog are those of its outlines.** -/
theorem Coherent.sizes_eq {c : Catalog} (h : c.Coherent) :
    c.sizes = .recount c.outlines.values := by
  have hfiles : c.outlines.size = c.outlines.values.length := (List.length_map Prod.snd).symm
  simp only [sizes, CatalogSizes.recount, h.count_eq, h.size_declaring, hfiles]

/-! ## Tables that follow the outlines -/

/-- **The tables say what the outlines say.**  The right-hand sides read the outlines alone. -/
structure TablesFollow (c : Catalog) : Prop where
  /-- Under a name stand exactly the slots whose symbol carries it. -/
  mem_slots : ∀ (a : Aspect) (n : Text) (s : Slot), s ∈ c.table.slots ⟨a, n⟩ ↔
    ∃ o, c.outline? s.file = some o ∧ o.Carries n s.index a
  nodup_slots : ∀ k : Term, (c.table.slots k).Nodup
  /-- A name is there when something stands under it. -/
  mem_keys : ∀ k : Term, k ∈ c.table.keys ↔ c.table.slots k ≠ []
  /-- Under a namespace stand exactly the files whose outline declares it. -/
  mem_declaring : ∀ (ns : Text) (file : FileId), file ∈ c.filesDeclaring ns ↔
    ∃ o, c.outline? file = some o ∧ ns ∈ o.namespaces
  nodup_declaring : ∀ ns : Text, (c.filesDeclaring ns).Nodup
  /-- A namespace is there when something stands under it. -/
  mem_declaring_keys : ∀ ns : Text, ns ∈ c.declaring.keys ↔ c.filesDeclaring ns ≠ []
  sizes_eq : c.sizes = .recount c.outlines.values

theorem Coherent.tablesFollow {c : Catalog} (h : c.Coherent) : c.TablesFollow where
  mem_slots a n s := by simp only [h.mem_slots, Outline.mem_terms_iff]
  nodup_slots := h.tidy_table.nodup_bucket
  mem_keys := h.tidy_table.mem_keys_iff
  mem_declaring := h.mem_declaring
  nodup_declaring := h.tidy_declaring.nodup_bucket
  mem_declaring_keys := h.tidy_declaring.mem_keys_iff
  sizes_eq := h.sizes_eq

/-- **Whatever the history, the tables are those the outlines determine**: under each name stand,
once each, exactly the slots whose symbol carries it in the current outline of its file, and under
each namespace the files whose outline declares it; a key with nothing under it is not there; and
the sizes are those counted from the outlines. -/
theorem tables_replay (us : List CatalogUpdate) : (replay us).TablesFollow :=
  (coherent_replay us).tablesFollow

end Catalog

end TclAtlas
