import TclAtlas.Proofs.Ledger.Forgetting
import TclAtlas.Proofs.Session.Batches
import TclAtlas.Proofs.Session.Calls
import TclAtlas.Proofs.Workspace.Walk

/-!
# Proofs/Session/Rebuilding — a full rebuild forgets history

As long as nothing comes in between (`Session.Quiet`), a rebuild loads the workspace as it is and
has its ledger rebuilt from the files, like a ledger that is filled from a source directly.  So
whatever a session has been through, its ledger is made from just these files afterwards, and it is
that of a fresh one filled from the same source, up to the numbers of the files.

The rebuild answers how many files it has loaded.  These are at different paths, but files are known
by the texts of their paths.  So the answer is the number of files in the catalog if no two paths
are shown alike, and only then (`Session.Reachable.rebuild_forgets_history`).
-/

namespace TclAtlas.Session

variable {σ : Type} {src : FileSource σ} {α : Type u}
  (inner : List (Step σ α) → Session src α → Session src α) {s : Session src α}

/-! ## Rebuilds without interventions -/

/-- **No intervention waits** for a workspace to be loaded: for a search path to be listed or for
one of the files to be read. -/
structure Quiet (s : Session src α) (sel : Selection) : Prop where
  listing : ∀ w ∈ s.waiting, ∀ root ∈ sel.searchPaths, w.1 ≠ .collect root
  reading : ∀ w ∈ s.waiting, ∀ p ∈ src.paths s.files sel, w.1 ≠ .read p

theorem quiet_of_waiting (hwaiting : s.waiting = []) (sel : Selection) : s.Quiet sel where
  listing _ hw := absurd (hwaiting ▸ hw) List.not_mem_nil
  reading _ hw := absurd (hwaiting ▸ hw) List.not_mem_nil

theorem Quiet.select {sel : Selection} (h : s.Quiet sel) : (s.select sel).Quiet sel :=
  ⟨h.listing, h.reading⟩

theorem collectAll_of_not_waiting (sel : Selection) : ∀ {roots : List Path},
    (∀ w ∈ s.waiting, ∀ root ∈ roots, w.1 ≠ .collect root) →
      s.collectAll inner sel roots =
        (roots.map fun p => (src.collect s.files sel p).toOption.getD [], s)
  | [], _ => rfl
  | root :: roots, h => by
    have hfirst : ∀ w ∈ s.waiting, w.1 ≠ .collect root := fun w hw =>
      h w hw root List.mem_cons_self
    have hrest : ∀ w ∈ s.waiting, ∀ root' ∈ roots, w.1 ≠ .collect root' := fun w hw root' hroot =>
      h w hw root' (List.mem_cons_of_mem root hroot)
    rw [collectAll, collect, intervene_of_not_waiting inner hfirst]
    simp only
    rw [collectAll_of_not_waiting sel hrest]
    rfl

theorem readAll_of_not_waiting : ∀ {ps : List Path},
    (∀ w ∈ s.waiting, ∀ p ∈ ps, w.1 ≠ .read p) →
      s.readAll inner ps = (ps.filterMap fun p => (src.read s.files p).toOption.map (⟨p, ·⟩), s)
  | [], _ => rfl
  | p :: ps, h => by
    have hfirst : ∀ w ∈ s.waiting, w.1 ≠ .read p := fun w hw => h w hw p List.mem_cons_self
    have hrest : ∀ w ∈ s.waiting, ∀ q ∈ ps, w.1 ≠ .read q := fun w hw q hq =>
      h w hw q (List.mem_cons_of_mem p hq)
    rw [readAll, read_of_not_waiting inner hfirst]
    simp only
    rw [readAll_of_not_waiting hrest, List.filterMap_cons]
    rcases (src.read s.files p).toOption with _ | text <;> rfl

/-- **Loading without interventions** gives the files that are there. -/
theorem load_of_quiet {sel : Selection} (h : s.Quiet sel) :
    s.load inner sel = (src.load s.files sel, s) := by
  rw [load, collectAll_of_not_waiting inner sel h.listing]
  exact readAll_of_not_waiting inner h.reading

/-- **A rebuild without interventions** is done.  It has the ledger rebuilt from the files there
are, and touches nothing else but the record of emissions. -/
theorem rebuild_of_quiet (h : s.Quiet s.curator.selection) :
    (s.rebuild inner).1 = some (src.load s.files s.curator.selection).length ∧
      (s.rebuild inner).2.curator = { s.curator with
        ledger := s.curator.ledger.rebuild (src.keyed s.files s.curator.selection) } ∧
      (s.rebuild inner).2.files = s.files ∧ (s.rebuild inner).2.waiting = s.waiting := by
  let begun : Session src α := { s with curator := s.curator.beginRebuild.2 }
  have hloaded : s.loaded inner = (src.load s.files s.curator.selection, begun) :=
    load_of_quiet inner (s := begun) ⟨h.listing, h.reading⟩
  rw [rebuild_eq, rebuildCommit, hloaded]
  refine ⟨?_, curator_conclude .., files_conclude .., waiting_conclude ..⟩
  let files := src.keyed s.files s.curator.selection
  have hdone : (begun.curator.ledger.concludeRebuild s.curator.beginRebuild.1 files).1 =
      some (s.curator.ledger.registry.registerAll (files.map Prod.fst)).1 :=
    (Ledger.concludeRebuild_fst ..).trans (if_pos rfl)
  refine (congrArg (Option.map List.length) hdone).trans (congrArg some ?_)
  rw [Registry.length_registerAll, List.length_map]
  exact List.length_map _

/-! ## History -/

theorem ledger_rebuild_of_quiet {sel : Selection} (h : s.Quiet sel) :
    ((s.select sel).rebuild inner).2.curator.ledger =
      s.curator.ledger.rebuild (src.keyed s.files sel) := by
  obtain ⟨-, hcurator, -, -⟩ := rebuild_of_quiet inner h.select
  exact congrArg Curator.ledger hcurator

theorem answer_rebuild_of_quiet {sel : Selection} (h : s.Quiet sel) :
    ((s.select sel).rebuild inner).1 = some (src.keyed s.files sel).length := by
  rw [FileSource.keyed, List.length_map]
  exact (rebuild_of_quiet inner h.select).1

/-- **The ledger of a session is made from the files of its workspace** after such a rebuild. -/
theorem Reachable.madeFrom_rebuild (h : s.Reachable) {sel : Selection} (hquiet : s.Quiet sel) :
    ((s.select sel).rebuild inner).2.curator.ledger.MadeFrom (src.keyed s.files sel) := by
  rw [ledger_rebuild_of_quiet inner hquiet]
  exact h.timely.madeFrom_rebuild _

/-- **A full rebuild forgets history.**  Whatever a session has been through, let it rebuild its
catalog with nothing coming in between — from the selection that it has, or from another one.  The
rebuild answers the number of files loaded, and its ledger is made from these alone, tables and all.
So it is with a fresh ledger filled from the same files, and the two are the same up to the numbers
of the files, which come in the same order.

The answer is the number of files that the catalog then has, and the files are listed one by one,
each at its path and with the outline of its text, exactly if no two of the paths loaded are shown
alike.  Among paths that are texts no two are. -/
theorem Reachable.rebuild_forgets_history (h : s.Reachable) (sel : Selection)
    (hquiet : s.Quiet sel) (levels : Nat) (order : Arrangement) :
    let loaded := src.keyed s.files sel
    let rebuilt := (s.select sel).rebuild (interventions levels)
    let l := rebuilt.2.curator.ledger
    let anew := (Ledger.fresh order).loadWorkspace src s.files sel
    rebuilt.1 = some loaded.length ∧ l.MadeFrom loaded ∧
      anew.1 = loaded.length ∧ anew.2.MadeFrom loaded ∧
      (∃ ρ, Ledger.SameUpTo ρ l anew.2 ∧ anew.2.catalog.files = l.catalog.files.map ρ) ∧
      (rebuilt.1 = some l.catalog.fileCount ↔ (loaded.map Prod.fst).Nodup) ∧
      (l.Lists loaded ↔ (loaded.map Prod.fst).Nodup) ∧
      ((∀ f ∈ src.load s.files sel, ∃ t, f.path = .ofText t) → (loaded.map Prod.fst).Nodup) := by
  intro loaded rebuilt l anew
  have hanswer : rebuilt.1 = some loaded.length := answer_rebuild_of_quiet _ hquiet
  have hmade : l.MadeFrom loaded := h.madeFrom_rebuild _ hquiet
  have hanew : anew.2.MadeFrom loaded := (Ledger.timely_fresh order).madeFrom_rebuild _
  refine ⟨hanswer, hmade, (List.length_map _).symm, hanew, hmade.holds.exists_sameUpTo hanew.holds,
    ?_, hmade.lists_iff, FileSource.nodup_keys_of_texts⟩
  rw [hanswer, Option.some.injEq, eq_comm]
  exact hmade.fileCount_iff

/-! ### A file in the place of another -/

/-- The workspace `w`. -/
def justW : Selection := Selection.nowhere.addRoot (.ofText ['w'])

/-- The tree with the file `w/b.tcl`. -/
def treeB : FileTree := FileTree.empty.writeText (.ofText "w/b.tcl".toList) "set x 1".toList

/-- A session over the workspace `w` with one file, which has been indexed and then replaced by
another one. -/
def replaced : Session FileTree.source Unit :=
  { ((start .asCommitted justW
        (FileTree.empty.writeText (.ofText "w/a.tcl".toList) "proc a {} {}".toList) :
      Session FileTree.source Unit).perform
        (interventions 0) (.handle (.created (.ofText "w/a.tcl".toList)))).2 with
    files := treeB }

theorem keyed_treeB :
    FileTree.source.keyed treeB justW = [("w/b.tcl".toList, "set x 1".toList)] := by
  have hfind : treeB.find (.ofText ['w']) = .ok (.folder true
      (.leaf (Text.utf8 "b.tcl".toList) (.file (Text.utf8 "set x 1".toList) true) .nil)) := by
    decide +kernel
  have hpaths : FileTree.source.paths treeB justW = [.ofText "w/b.tcl".toList] :=
    FileTree.paths_of_walk hfind rfl (by decide +kernel) (List.pairwise_singleton _ _)
      (by decide +kernel)
  have hread : treeB.read (.ofText "w/b.tcl".toList) = .ok "set x 1".toList := by decide +kernel
  rw [FileSource.keyed, FileSource.load, hpaths, List.filterMap_cons, FileTree.source_read, hread]
  decide +kernel

/-- The file that is gone has left its number behind, which the new one would have had. -/
theorem rebuild_forgets_history_replaced :
    let l := ((replaced.select justW).rebuild (interventions 0)).2.curator.ledger
    let anew := (Ledger.fresh .asCommitted).loadWorkspace FileTree.source treeB justW
    replaced.curator.ledger.catalog.files = [⟨0⟩] ∧ l.catalog.files = [⟨1⟩] ∧
      l.Lists [("w/b.tcl".toList, "set x 1".toList)] ∧ anew.2.catalog.files = [⟨0⟩] ∧
      ∃ ρ, Ledger.SameUpTo ρ l anew.2 ∧ ρ ⟨1⟩ = ⟨0⟩ := by
  intro l anew
  have hreachable : replaced.Reachable := .change _ (.perform 0 _ (.start _ _ _))
  have hquiet : replaced.Quiet justW := quiet_of_waiting rfl _
  have hledger : l = replaced.curator.ledger.rebuild _ := ledger_rebuild_of_quiet _ hquiet
  have hloaded : FileTree.source.keyed replaced.files justW =
      [("w/b.tcl".toList, "set x 1".toList)] := keyed_treeB
  have hfiles : l.catalog.files = [⟨1⟩] := by
    rw [hledger, hloaded]
    decide +kernel
  have hanew : anew.2.catalog.files = [⟨0⟩] := by
    change ((Ledger.fresh .asCommitted).rebuild
      (FileTree.source.keyed treeB justW)).catalog.files = _
    rw [keyed_treeB]
    decide +kernel
  obtain ⟨-, -, -, -, ⟨ρ, hρ, hmap⟩, -, hlists, -⟩ :=
    hreachable.rebuild_forgets_history justW hquiet 0 .asCommitted
  rw [hloaded] at hlists
  refine ⟨by decide +kernel, hfiles, hlists.mpr (by decide), hanew, ρ, hρ, ?_⟩
  have hone : [(⟨0⟩ : FileId)] = [⟨1⟩].map ρ := hanew.symm.trans (hmap.trans (hfiles ▸ rfl))
  exact (List.cons.inj hone).1.symm

/-! ### Two files that are shown alike -/

/-- Two files whose names are no texts. -/
def brokenListing : Listing :=
  .leaf (0xFE :: Text.utf8 ".tcl".toList) (.file [] true)
    (.leaf (0xFF :: Text.utf8 ".tcl".toList) (.file [] true) .nil)

/-- The tree with the two files in the directory `w`. -/
def brokenNames : FileTree where
  top := .folder (Text.utf8 ['w']) true brokenListing .nil
  workingDir := []
  wellFormed := by decide +kernel

/-- The path of a file in the directory `w`, whose name is the given byte and an extension. -/
def brokenPath (b : UInt8) : Path :=
  ⟨Text.utf8 "w/".toList ++ b :: Text.utf8 ".tcl".toList⟩

theorem keyed_brokenNames : FileTree.source.keyed brokenNames justW =
    [(['w', '/', Bytes.replacement, '.', 't', 'c', 'l'], []),
      (['w', '/', Bytes.replacement, '.', 't', 'c', 'l'], [])] := by
  have hfind : brokenNames.find (.ofText ['w']) = .ok (.folder true brokenListing) := by
    decide +kernel
  have hpaths : FileTree.source.paths brokenNames justW = [brokenPath 0xFE, brokenPath 0xFF] :=
    FileTree.paths_of_walk hfind rfl (by decide +kernel) (by decide +kernel) (by decide +kernel)
  have hread : ∀ b ∈ [(0xFE : UInt8), 0xFF], brokenNames.read (brokenPath b) = .ok [] := by
    decide +kernel
  rw [FileSource.keyed, FileSource.load, hpaths, List.filterMap_cons, List.filterMap_cons,
    FileTree.source_read, FileTree.source_read, hread 0xFE (by decide), hread 0xFF (by decide)]
  decide +kernel

/-- **A rebuild may answer more files than the catalog then has.** -/
theorem not_rebuild_answers_fileCount :
    ¬ ∀ s : Session FileTree.source Unit, s.Reachable → ∀ sel, s.Quiet sel →
      ((s.select sel).rebuild (interventions 0)).1 =
        some ((s.select sel).rebuild (interventions 0)).2.curator.ledger.catalog.fileCount := by
  intro h
  let s : Session FileTree.source Unit := start .asCommitted justW brokenNames
  have hreachable : s.Reachable := .start _ _ _
  have hquiet : s.Quiet justW := quiet_of_waiting rfl _
  have hmade := hreachable.madeFrom_rebuild (interventions 0) hquiet
  have hcount := h s hreachable justW hquiet
  rw [answer_rebuild_of_quiet _ hquiet, Option.some.injEq, eq_comm, hmade.fileCount_iff] at hcount
  have hkeyed : FileTree.source.keyed s.files justW = _ := keyed_brokenNames
  rw [hkeyed] at hcount
  exact absurd hcount (by decide)

end TclAtlas.Session
