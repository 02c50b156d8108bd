import TclAtlas.Proofs.Ledger.Mirror
import TclAtlas.Proofs.Ledger.Sights
import TclAtlas.Proofs.Session.Batches
import TclAtlas.Proofs.Session.Calls

/-!
# Proofs/Session/Registering — files have paths, and paths keep their numbers

A curator looks up the number of a path before it commits anything for it.  So in a session all
files of the catalog have paths (`Session.Reachable.registered`).  A path that has a number keeps it
whatever happens, interventions included (`Session.growsInto_perform`), and the path of an accepted
event has one, unless the event is a deletion (`Session.exists_number_handleBatch`).
-/

namespace TclAtlas

namespace Ledger

/-! ## Ledgers that grow -/

/-- **An earlier ledger grows into a later one**: numbers stay, and so it does that all files have
paths. -/
structure GrowsInto (l l' : Ledger) : Prop where
  get? : ∀ p file, l.registry.get? p = some file → l'.registry.get? p = some file
  registered : l.Registered → l'.Registered

variable {l l' l'' : Ledger}

theorem GrowsInto.refl (l : Ledger) : l.GrowsInto l := ⟨fun _ _ h => h, id⟩

theorem GrowsInto.trans (h : l.GrowsInto l') (h' : l'.GrowsInto l'') : l.GrowsInto l'' :=
  ⟨fun p file hp => h'.get? p file (h.get? p file hp), h'.registered ∘ h.registered⟩

theorem GrowsInto.of_catalog_eq (hcatalog : l'.catalog = l.catalog)
    (hget : ∀ p file, l.registry.get? p = some file → l'.registry.get? p = some file) :
    l.GrowsInto l' where
  get? := hget
  registered h file hfile := by
    obtain ⟨p, hp⟩ := h file (hcatalog ▸ hfile)
    exact ⟨p, hget p file hp⟩

/-! ## Events -/

/-- **Issuing tickets** takes no number away. -/
theorem get?_issueAll {q : FileKey} {file : FileId} {l : Ledger} (h : l.registry.get? q = some file)
    (es : List FileEvent) : (l.issueAll es).2.registry.get? q = some file := by
  rw [registry_issueAll]
  exact Registry.get?_registerAll_of_get? _ h

/-- Each ticket is for the file of its event. -/
theorem get?_of_mem_issueAll {p : Pending} : ∀ {es : List FileEvent} {l : Ledger},
    p ∈ (l.issueAll es).1 →
      (l.issueAll es).2.registry.get? p.event.path.shown = some p.ticket.file
  | [], _, h => absurd h List.not_mem_nil
  | e :: es, l, h => by
    rw [issueAll] at h ⊢
    rcases hfile : l.fileOf e with _ | ⟨file, l₁⟩
    · rw [hfile] at h
      exact get?_of_mem_issueAll h
    · rw [hfile] at h
      rcases List.mem_cons.mp h with rfl | h
      · exact get?_issueAll (l := (l₁.issue file).2) (get?_of_fileOf hfile).1 es
      · exact get?_of_mem_issueAll h

/-- An event that is no deletion gives its path a number. -/
theorem exists_get?_issueAll {e : FileEvent} (hdeleted : ∀ p, e ≠ .deleted p)
    {es : List FileEvent} (he : e ∈ es) (l : Ledger) :
    ∃ file, (l.issueAll es).2.registry.get? e.path.shown = some file := by
  have hsight : e.sight? = some e.path.shown := by
    rcases e with p | p | p
    · rfl
    · rfl
    · exact absurd rfl (hdeleted p)
  rw [registry_issueAll]
  exact Registry.exists_get?_registerAll (List.mem_filterMap.mpr ⟨e, he, hsight⟩) _

theorem growsInto_issueAll (l : Ledger) (es : List FileEvent) : l.GrowsInto (l.issueAll es).2 := by
  have hcatalog : (l.issueAll es).2.catalog = l.catalog :=
    (congrArg catalog (l.issueAll_snd es) :)
  exact .of_catalog_eq hcatalog fun _ _ h => get?_issueAll h es

/-- **A commit** of a file that has a path. -/
theorem growsInto_commit {t : UpdateTicket} (ht : ∃ p, l.registry.get? p = some t.file)
    (o : Option Outline) : l.GrowsInto (l.commit t o).2 where
  get? p file hp := by rwa [registry_commit]
  registered h file hfile := by
    rw [registry_commit]
    rcases eq_or_ne file t.file with rfl | hne
    · exact ht
    · rw [Catalog.mem_files_iff, outline?_commit_of_ne l hne, ← Catalog.mem_files_iff] at hfile
      exact h file hfile

theorem growsInto_commitAll : ∀ (us : List (UpdateTicket × Option Outline)) {l : Ledger},
    (∀ u ∈ us, ∃ p, l.registry.get? p = some u.1.file) → l.GrowsInto (l.commitAll us).2
  | [], _, _ => .refl _
  | (t, o) :: us, l, h => by
    obtain ⟨ht, hus⟩ := List.forall_mem_cons.mp h
    refine (growsInto_commit ht o).trans (growsInto_commitAll us fun u hu => ?_)
    rw [registry_commit]
    exact hus u hu

/-! ## Rebuilds -/

theorem growsInto_commitRebuild (t : RebuildTicket) {os : List (FileId × Outline)}
    (hos : ∀ file ∈ os.map Prod.fst, ∃ p, l.registry.get? p = some file) :
    l.GrowsInto (l.commitRebuild t os).2 := by
  by_cases ht : t.generation = l.generation
  · have hregistry := l.registry_commitRebuild t os
    refine ⟨fun p file hp => hregistry ▸ hp, fun h file hfile => ?_⟩
    rw [hregistry]
    rw [Catalog.mem_files_iff, outline?_commitRebuild ht] at hfile
    split at hfile
    · exact h file ((Catalog.mem_files_iff _ file).mpr hfile)
    · rw [← Entries.mem_map_fst_iff, List.map_reverse, List.mem_reverse] at hfile
      exact hos file hfile
  · rw [commitRebuild_of_ne ht]
    exact .refl l

/-- The numbers go with the paths that they are given to. -/
theorem get?_of_mem_zip {number? : FileKey → Option FileId} {file : FileId} {f : FileKey × Text} :
    ∀ {ids : List FileId} {files : List (FileKey × Text)},
      ids.map some = (files.map Prod.fst).map number? → (file, f) ∈ ids.zip files →
        number? f.1 = some file
  | [], _, _, h => absurd h (by simp)
  | _ :: _, [], _, h => absurd h (by simp)
  | _ :: ids, _ :: files, hids, h => by
    obtain ⟨hfirst, hrest⟩ := List.cons.inj hids
    rcases List.mem_cons.mp h with heq | h
    · obtain ⟨rfl, rfl⟩ := Prod.mk.inj heq
      exact hfirst.symm
    · exact get?_of_mem_zip hrest h

/-- **Concluding a rebuild** registers the paths of all files that it commits. -/
theorem growsInto_concludeRebuild (l : Ledger) (t : RebuildTicket) (files : List (FileKey × Text)) :
    l.GrowsInto (l.concludeRebuild t files).2 := by
  let l₁ : Ledger := { l with registry := (l.registry.registerAll (files.map Prod.fst)).2 }
  have hfirst : l.GrowsInto l₁ :=
    .of_catalog_eq rfl fun p file hp => Registry.get?_registerAll_of_get? _ hp
  refine hfirst.trans (growsInto_commitRebuild (l := l₁) t fun file hfile => ?_)
  obtain ⟨⟨f, o⟩, hmem, rfl⟩ := List.mem_map.mp hfile
  obtain ⟨⟨f', e⟩, hzip, heq⟩ := List.mem_map.mp hmem
  obtain ⟨rfl, -⟩ : f' = f ∧ _ := Prod.mk.inj heq
  exact ⟨e.1, get?_of_mem_zip (Registry.map_some_registerAll _ l.registry) hzip⟩

end Ledger

/-! ## Sessions -/

namespace Session

variable {σ : Type} {src : FileSource σ} {α : Type u}

/-- **The ledger grows** from one session to a later one. -/
def GrowsInto (s s' : Session src α) : Prop := s.curator.ledger.GrowsInto s'.curator.ledger

theorem spanning_growsInto : Spanning (@GrowsInto σ src α) :=
  ⟨fun _ => .refl _, .trans, fun _ _ => .refl _⟩

section

variable {inner : List (Step σ α) → Session src α → Session src α}
  (hinner : ∀ steps s, GrowsInto s (inner steps s))

include hinner

/-- Once a batch has been received, its tickets are for files of registered paths. -/
theorem growsInto_handleBatch_of_receive (events : List FileEvent) (s : Session src α) :
    (s.curator.receive events).2.ledger.GrowsInto
      (s.handleBatch inner events).2.curator.ledger := by
  have hread : (s.curator.receive events).2.ledger.GrowsInto
      (s.scanned inner events).2.curator.ledger :=
    spanning_growsInto.scanAll hinner (s.curator.receive events).1
      { s with curator := (s.curator.receive events).2 }
  rw [handleBatch_eq, curator_settle]
  refine hread.trans (Ledger.growsInto_commitAll _ fun u hu => ?_)
  obtain ⟨p, hp, heq⟩ := exists_pending_of_mem_scanned hu
  exact ⟨p.event.path.shown, hread.get? _ _ (heq ▸ Ledger.get?_of_mem_issueAll hp)⟩

theorem growsInto_handleBatch (events : List FileEvent) (s : Session src α) :
    s.GrowsInto (s.handleBatch inner events).2 :=
  (s.curator.ledger.growsInto_issueAll _).trans (growsInto_handleBatch_of_receive hinner events s)

/-- **An accepted event** that is no deletion gives its path a number. -/
theorem exists_number_handleBatch {events : List FileEvent} (s : Session src α) {e : FileEvent}
    (he : e ∈ events) (haccepts : s.curator.selection.accepts e.path = true)
    (hdeleted : ∀ p, e ≠ .deleted p) :
    ∃ file, (s.handleBatch inner events).2.curator.ledger.registry.get? e.path.shown =
      some file := by
  have haccepted : e ∈ events.filter fun e => s.curator.selection.accepts e.path :=
    List.mem_filter.mpr ⟨he, haccepts⟩
  obtain ⟨file, hfile⟩ := Ledger.exists_get?_issueAll hdeleted haccepted s.curator.ledger
  exact ⟨file, (growsInto_handleBatch_of_receive hinner events s).get? e.path.shown file hfile⟩

theorem growsInto_rebuild (s : Session src α) : s.GrowsInto (s.rebuild inner).2 := by
  have hbegun : s.curator.ledger.GrowsInto s.curator.beginRebuild.2.ledger :=
    .of_catalog_eq rfl fun _ _ h => h
  have hloaded : s.curator.beginRebuild.2.ledger.GrowsInto (s.loaded inner).2.curator.ledger :=
    spanning_growsInto.load hinner s.curator.selection
      { s with curator := s.curator.beginRebuild.2 }
  rw [GrowsInto, rebuild_eq, curator_conclude]
  exact (hbegun.trans hloaded).trans (Ledger.growsInto_concludeRebuild ..)

theorem growsInto_perform (s : Session src α) : ∀ step, s.GrowsInto (s.perform inner step).2
  | .alter _ | .intervene _ _ | .subscribe | .unsubscribe _ | .observe _ => .refl _
  | .handle event => growsInto_handleBatch hinner [event] s
  | .handleBatch events => growsInto_handleBatch hinner events s
  | .rebuild => growsInto_rebuild hinner s
  | .reconfigure sel => growsInto_rebuild hinner (s.select sel)

end

theorem growsInto_interventions (levels : Nat) (steps : List (Step σ α)) (s : Session src α) :
    s.GrowsInto (interventions levels steps s) :=
  spanning_growsInto.interventions (fun _ hinner s step => growsInto_perform hinner s step)
    levels steps s

/-- **In a session all files have paths.** -/
theorem Reachable.registered {s : Session src α} (h : s.Reachable) :
    s.curator.ledger.Registered := by
  induction h with
  | start _ _ _ => exact fun _ hfile => absurd hfile List.not_mem_nil
  | change _ _ ih => exact ih
  | @perform s levels step _ ih =>
    exact (growsInto_perform (growsInto_interventions levels) s step).registered ih

end Session

end TclAtlas
