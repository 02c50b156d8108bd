import TclAtlas.Proofs.Catalog.History
import TclAtlas.Proofs.Ledger.DirectUpdates
import TclAtlas.Proofs.Ledger.Mirror
import Mathlib.Data.List.Perm.Subperm

/-!
# Proofs/Ledger/Forgetting — a rebuild forgets what was before

A rebuild makes a catalog of just the texts it is given, in their order, under tables made from
these alone (`Ledger.MadeFrom`).  Only the numbers of the files depend on what was there before, as
paths keep theirs.  So two ledgers rebuilt from the same files are the same up to the numbers, in
order and all (`Ledger.Holds.exists_sameUpTo`).

Files given under one key share a number, and the last text counts.  So the catalog **lists** the
files one by one (`Ledger.Lists`) exactly if their keys are all different
(`Ledger.MadeFrom.lists_iff`).
-/

namespace TclAtlas

namespace OrderedMap

variable {κ : Type u} {ν : Type v} [DecidableEq κ]

/-- Entries with new and different keys come last, in the order in which they are given. -/
theorem entries_insertAll : ∀ (es : List (κ × ν)) (m : OrderedMap κ ν),
    ((m.entries ++ es).map Prod.fst).Nodup → (m.insertAll es).entries = m.entries ++ es
  | [], m, _ => (List.append_nil m.entries).symm
  | e :: es, m, h => by
    have hnew : e.1 ∉ m.entries.map Prod.fst := by
      rw [List.map_append, List.map_cons] at h
      exact fun hmem => (List.nodup_append.mp h).2.2 _ hmem _ List.mem_cons_self rfl
    have hput : (m.insert e.1 e.2).entries = m.entries ++ [e] := Entries.put_of_not_mem e.2 hnew
    have hsplit : m.entries ++ e :: es = (m.insert e.1 e.2).entries ++ es := by
      rw [hput, List.append_assoc, List.singleton_append]
    rw [insertAll, List.foldl_cons, hsplit]
    exact entries_insertAll es (m.insert e.1 e.2) (hsplit ▸ h)

theorem insertAll_empty {es : List (κ × ν)} (h : (es.map Prod.fst).Nodup) :
    insertAll empty es = ⟨es, h⟩ := ext (entries_insertAll es empty h)

theorem mem_keys_insertAll {k : κ} : ∀ (es : List (κ × ν)) (m : OrderedMap κ ν),
    k ∈ (m.insertAll es).keys ↔ k ∈ m.keys ∨ k ∈ es.map Prod.fst
  | [], m => by simp [insertAll]
  | e :: es, m => by
    have hrest := mem_keys_insertAll (k := k) es (m.insert e.1 e.2)
    rw [insertAll, List.foldl_cons]
    rw [keys_insert, Distinct.mem_insertLast] at hrest
    refine hrest.trans ?_
    rw [List.map_cons, List.mem_cons, ← or_assoc]
    exact or_congr_left or_comm

/-- **As many entries as are given** there are only if their keys are all different. -/
theorem size_insertAll_iff {es : List (κ × ν)} :
    (insertAll empty es).size = es.length ↔ (es.map Prod.fst).Nodup := by
  constructor
  · intro h
    have hkeys : (insertAll empty es).keys ⊆ es.map Prod.fst := fun k hk =>
      ((mem_keys_insertAll es empty).mp hk).resolve_left List.not_mem_nil
    have hlength : (es.map Prod.fst).length ≤ (insertAll empty es).keys.length := by
      rw [List.length_map, keys, List.length_map, ← h, size]
    have hperm := (List.subperm_of_subset (insertAll empty es).nodup hkeys).perm_of_length_le
      hlength
    exact hperm.nodup_iff.mp (insertAll empty es).nodup
  · intro h
    rw [insertAll_empty h, size]

end OrderedMap

namespace Ledger

/-- **A ledger lists just the given files.** -/
structure Lists (l : Ledger) (files : List (FileKey × Text)) : Prop where
  /-- The files are at the paths given, in the same order. -/
  paths : l.catalog.files.map l.registry.path? = files.map fun f => some f.1
  /-- The outline of each is that of the text given. -/
  outline? : ∀ p text, (p, text) ∈ files → ∃ file, l.registry.get? p = some file ∧
    l.catalog.outline? file = some (scanText file text)
  /-- The catalog is made of these texts alone, tables and all. -/
  catalog : l.catalog = .ofTexts (l.catalog.files.zip (files.map Prod.snd))

/-- **A ledger is made from files**, some of which may have the same key: the last text of a key
counts, in the place of the first. -/
structure MadeFrom (l : Ledger) (files : List (FileKey × Text)) : Prop where
  holds : l.Holds (.insertAll .empty files)
  /-- The catalog is made of the texts alone, tables and all. -/
  catalog : ∃ ids : List FileId, ids.map some = files.map (fun f => l.registry.get? f.1) ∧
    l.catalog = .ofTexts (ids.zip (files.map Prod.snd))

variable {l l' : Ledger} {files : List (FileKey × Text)}

/-! ## Ledgers that hold texts -/

namespace Holds

variable {m : TextMap}

theorem paths (h : l.Holds m) :
    l.catalog.files.map l.registry.path? = m.entries.map fun f => some f.1 := by
  rw [Catalog.files, OrderedMap.keys, List.map_map, ← List.forall₂_eq_eq_eq,
    List.forall₂_map_left_iff, List.forall₂_map_right_iff]
  exact h.entries.imp fun e f hef => (l.registry.get?_eq_some_iff f.1 e.1).mp hef.1

theorem fileCount_eq (h : l.Holds m) : l.catalog.fileCount = m.size :=
  h.entries.length_eq

/-- **A ledger that holds texts mirrors them.** -/
theorem mirrors (h : l.Holds m) : l.Mirrors m.get? where
  outline? p file hp := by
    rcases htext : m.get? p with _ | text
    · have hcontains := h.contains_eq hp
      rw [OrderedMap.contains, htext] at hcontains
      exact Option.not_isSome_iff_eq_none.mp (Bool.eq_false_iff.mp hcontains)
    · obtain ⟨file', hp', houtline⟩ := h.outline?_of_get? htext
      obtain rfl : file' = file := Option.some.inj (hp'.symm.trans hp)
      exact houtline
  unregistered p hp := Option.not_isSome_iff_eq_none.mp fun hsome =>
    h.not_mem_keys hp ((m.mem_keys_iff p).mpr hsome)
  registered file hfile := by
    have hmem : some file ∈ l.catalog.files.map some := List.mem_map_of_mem hfile
    rw [h.map_files, List.mem_map] at hmem
    obtain ⟨p, -, hp⟩ := hmem
    exact ⟨p, hp⟩

/-- **Ledgers that hold the same texts** have their files in the same order. -/
theorem files_eq_map (h : l.Holds m) (h' : l'.Holds m) {ρ : FileId → FileId}
    (hρ : SameUpTo ρ l l') : l'.catalog.files = l.catalog.files.map ρ := by
  have hnumber : ∀ p ∈ m.keys, l'.registry.get? p = (l.registry.get? p).map ρ := by
    intro p hp
    obtain ⟨text, htext⟩ := Option.isSome_iff_exists.mp ((m.mem_keys_iff p).mp hp)
    obtain ⟨file, hfile, houtline⟩ := h.outline?_of_get? htext
    rw [hfile]
    exact hρ.renumbers p file hfile
      ((Catalog.mem_files_iff _ file).mpr (Option.isSome_iff_exists.mpr ⟨_, houtline⟩))
  refine List.map_injective_iff.mpr (fun _ _ => Option.some.inj) ?_
  calc l'.catalog.files.map some
      = m.keys.map l'.registry.get? := h'.map_files
    _ = m.keys.map fun p => (l.registry.get? p).map ρ := List.map_congr_left hnumber
    _ = (l.catalog.files.map some).map (Option.map ρ) := by rw [h.map_files, List.map_map]; rfl
    _ = (l.catalog.files.map ρ).map some := by rw [List.map_map, List.map_map]; rfl

/-- **Two ledgers that hold the same texts** are the same up to the numbers of the files, and have
them in the same order. -/
theorem exists_sameUpTo (h : l.Holds m) (h' : l'.Holds m) :
    ∃ ρ, SameUpTo ρ l l' ∧ l'.catalog.files = l.catalog.files.map ρ := by
  obtain ⟨ρ, hρ⟩ := h.mirrors.sameUpTo h'.mirrors
  exact ⟨ρ, hρ, h.files_eq_map h' hρ⟩

end Holds

/-! ## Rebuilds -/

/-- **A rebuild makes a ledger from the files it is given**, whatever the ledger held before. -/
theorem Timely.madeFrom_rebuild (hl : l.Timely) (files : List (FileKey × Text)) :
    (l.rebuild files).MadeFrom files := by
  obtain ⟨hregistry, hcatalog⟩ := rebuild_catalog_eq hl files
  refine ⟨hl.holds_rebuild files, (l.registry.registerAll (files.map Prod.fst)).1, ?_, ?_⟩
  · rw [hregistry, Registry.map_some_registerAll, List.map_map]
    rfl
  · rw [hcatalog, Catalog.ofTexts, rebuildOutlines, List.zip_map_right, List.map_map]
    rfl

namespace MadeFrom

theorem lists (h : l.MadeFrom files) (hfiles : (files.map Prod.fst).Nodup) : l.Lists files := by
  have hholds : l.Holds ⟨files, hfiles⟩ := OrderedMap.insertAll_empty hfiles ▸ h.holds
  obtain ⟨ids, hids, hcatalog⟩ := h.catalog
  have hfileIds : l.catalog.files = ids := by
    refine List.map_injective_iff.mpr (fun _ _ => Option.some.inj) (hholds.map_files.trans ?_)
    rw [hids, OrderedMap.keys, List.map_map]
    rfl
  exact ⟨hholds.paths, fun p text hmem => hholds.outline?_of_get?
    (((⟨files, hfiles⟩ : TextMap).get?_eq_some_iff p text).mpr hmem), hfileIds ▸ hcatalog⟩

/-- **As many files as were given** are in the catalog exactly if their keys are all different. -/
theorem fileCount_iff (h : l.MadeFrom files) :
    l.catalog.fileCount = files.length ↔ (files.map Prod.fst).Nodup := by
  rw [h.holds.fileCount_eq]
  exact OrderedMap.size_insertAll_iff

/-- **The files are listed one by one** exactly if their keys are all different. -/
theorem lists_iff (h : l.MadeFrom files) : l.Lists files ↔ (files.map Prod.fst).Nodup := by
  refine ⟨fun hlists => h.fileCount_iff.mp ?_, h.lists⟩
  have hlength := congrArg List.length hlists.paths
  rw [List.length_map, List.length_map] at hlength
  exact (List.length_map _).symm.trans hlength

end MadeFrom

end Ledger

end TclAtlas
