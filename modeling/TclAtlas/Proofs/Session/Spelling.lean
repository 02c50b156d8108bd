import TclAtlas.Proofs.Session.Rebuilding
import TclAtlas.Proofs.Session.Registering
import Mathlib.Data.List.Pairwise

/-!
# Proofs/Session/Spelling — one path, spelled in two ways

Two spellings with the same components are the same path (`Path.same`): a workspace lists none
twice, and an event is accepted however its path is spelled.  A registry, however, tells paths apart
by the texts that they are shown as.  So a catalog may come to have two files at the same path, one
for each spelling.

Which calls bring this about is told exactly (`Session.Reachable.one_entry_per_path_iff`).  A
rebuild does not where all paths are texts, as it starts from a listing without repetition.  An
event does so when it has a file read whose path already has an outline under another spelling.
-/

namespace TclAtlas

/-- Whether what two files are registered under is the same path, in whatever spelling. -/
def FileKey.same (k k' : FileKey) : Bool := (Path.ofText k).same (.ofText k')

theorem FileKey.same_comm (k k' : FileKey) : FileKey.same k k' = FileKey.same k' k :=
  Path.same_comm _ _

namespace Ledger

/-- **No two files of the catalog are at the same path**, in whatever spelling. -/
def OneEntryPerPath (l : Ledger) : Prop :=
  ∀ file ∈ l.catalog.files, ∀ file' ∈ l.catalog.files, ∀ k k',
    l.registry.path? file = some k → l.registry.path? file' = some k' →
      FileKey.same k k' = true → file = file'

variable {l : Ledger}

theorem outlineAt?_ne_none_iff {k : FileKey} :
    l.outlineAt? k ≠ none ↔ ∃ file ∈ l.catalog.files, l.registry.path? file = some k := by
  simp only [← Registry.get?_eq_some_iff, Catalog.mem_files_iff, outlineAt?]
  rcases l.registry.get? k with _ | file
  · simp
  · simp [Option.isSome_iff_ne_none]

/-- **There is one entry per path** when no path has outlines under two spellings. -/
theorem oneEntryPerPath_iff : l.OneEntryPerPath ↔
    ∀ k k', FileKey.same k k' = true → k ≠ k' → l.outlineAt? k = none ∨ l.outlineAt? k' = none := by
  constructor
  · intro h k k' hsame hne
    by_contra hboth
    obtain ⟨hk, hk'⟩ := not_or.mp hboth
    obtain ⟨file, hfile, hpath⟩ := outlineAt?_ne_none_iff.mp hk
    obtain ⟨file', hfile', hpath'⟩ := outlineAt?_ne_none_iff.mp hk'
    obtain rfl := h file hfile file' hfile' k k' hpath hpath' hsame
    exact hne (Option.some.inj (hpath.symm.trans hpath'))
  · intro h file hfile file' hfile' k k' hpath hpath' hsame
    by_contra hne
    have hspelling : k ≠ k' := by
      rintro rfl
      rw [← Registry.get?_eq_some_iff] at hpath hpath'
      exact hne (Option.some.inj (hpath.symm.trans hpath'))
    rcases h k k' hsame hspelling with hnone | hnone
    · exact outlineAt?_ne_none_iff.mpr ⟨file, hfile, hpath⟩ hnone
    · exact outlineAt?_ne_none_iff.mpr ⟨file', hfile', hpath'⟩ hnone

/-! ## Rebuilds -/

/-- **A ledger made from files** has outlines under the keys of these. -/
theorem MadeFrom.outlineAt?_ne_none_iff {files : List (FileKey × Text)} (h : l.MadeFrom files)
    {k : FileKey} : l.outlineAt? k ≠ none ↔ k ∈ files.map Prod.fst := by
  have hpaths : (∃ file ∈ l.catalog.files, l.registry.path? file = some k) ↔
      k ∈ (OrderedMap.insertAll .empty files).keys := by
    rw [← List.mem_map, h.holds.paths]
    simp [OrderedMap.keys]
  rw [Ledger.outlineAt?_ne_none_iff, hpaths, OrderedMap.mem_keys_insertAll]
  exact or_iff_right List.not_mem_nil

/-- **A ledger made from files** has one entry per path when no path is among their keys under two
spellings. -/
theorem MadeFrom.oneEntryPerPath_iff {files : List (FileKey × Text)} (h : l.MadeFrom files) :
    l.OneEntryPerPath ↔ ∀ k ∈ files.map Prod.fst, ∀ k' ∈ files.map Prod.fst,
      FileKey.same k k' = true → k = k' := by
  rw [Ledger.oneEntryPerPath_iff]
  constructor
  · intro hone k hk k' hk' hsame
    by_contra hne
    rcases hone k k' hsame hne with hnone | hnone
    · exact h.outlineAt?_ne_none_iff.mpr hk hnone
    · exact h.outlineAt?_ne_none_iff.mpr hk' hnone
  · intro hkeys k k' hsame hne
    by_contra hboth
    obtain ⟨hk, hk'⟩ := not_or.mp hboth
    exact hne (hkeys k (h.outlineAt?_ne_none_iff.mp hk) k' (h.outlineAt?_ne_none_iff.mp hk') hsame)

/-! ## Events -/

/-- **An event changes the outline of its own path**, as it is spelled, and of no other. -/
theorem exists_outlineAt?_handled (hl : l.Timely) (hr : l.Registered) {e : FileEvent}
    {text? : Option Text} (hdeleted : ∀ p, e = .deleted p → text? = none) :
    ∃ file, ∀ k, (l.handled e text?).outlineAt? k =
      if k = e.path.shown then text?.map (scanText file) else l.outlineAt? k := by
  have hregister : ∀ p k : FileKey, (((l.register p).2.issue (l.register p).1).2.commit
      ((l.register p).2.issue (l.register p).1).1
        (text?.map (scanText (l.register p).1))).2.outlineAt? k =
          if k = p then text?.map (scanText (l.register p).1) else l.outlineAt? k := by
    intro p k
    refine (outlineAt?_update (hl.register p) (l.registry.get?_register p) _ k).trans ?_
    rw [outlineAt?_register hr]
  rcases e with p | p | p
  · exact ⟨_, hregister p.shown⟩
  · exact ⟨_, hregister p.shown⟩
  · obtain rfl : text? = none := hdeleted p rfl
    rw [handled, fileOf]
    rcases hp : l.registry.get? p.shown with _ | file
    · have habsent : ∀ k, l.outlineAt? k = if k = p.shown then none else l.outlineAt? k := by
        intro k
        split
        · next heq => rw [heq, outlineAt?, hp, Option.bind_none]
        · rfl
      exact ⟨⟨0⟩, habsent⟩
    · exact ⟨file, outlineAt?_update hl hp none⟩

/-- **An event keeps to one entry per path** exactly when there is nothing to commit for it, or its
path has no outline under another spelling. -/
theorem oneEntryPerPath_handled_iff (hl : l.Timely) (hr : l.Registered) (h : l.OneEntryPerPath)
    {e : FileEvent} {text? : Option Text} (hdeleted : ∀ p, e = .deleted p → text? = none) :
    (l.handled e text?).OneEntryPerPath ↔ text? = none ∨
      ∀ k, FileKey.same k e.path.shown = true → k ≠ e.path.shown → l.outlineAt? k = none := by
  obtain ⟨file, hat⟩ := exists_outlineAt?_handled hl hr hdeleted
  rw [oneEntryPerPath_iff] at h ⊢
  constructor
  · intro hafter
    rcases text? with _ | text
    · exact Or.inl rfl
    · refine Or.inr fun k hsame hne => ?_
      have hboth := hafter k e.path.shown hsame hne
      rw [hat, hat, if_neg hne, if_pos rfl] at hboth
      exact hboth.resolve_right (by simp)
  · have hown : ∀ k, FileKey.same k e.path.shown = true → k ≠ e.path.shown → (text? = none ∨
        ∀ k, FileKey.same k e.path.shown = true → k ≠ e.path.shown → l.outlineAt? k = none) →
          text?.map (scanText file) = none ∨ l.outlineAt? k = none := by
      rintro k hsame hne (rfl | hall)
      · exact Or.inl rfl
      · exact Or.inr (hall k hsame hne)
    intro hcases k k' hsame hne
    rw [hat, hat]
    by_cases hk : k = e.path.shown
    · have hk' : k' ≠ e.path.shown := fun hk' => hne (hk.trans hk'.symm)
      rw [if_pos hk, if_neg hk']
      exact hown k' (by rw [FileKey.same_comm, ← hk, hsame]) hk' hcases
    · by_cases hk' : k' = e.path.shown
      · rw [if_neg hk, if_pos hk']
        exact (hown k (hk' ▸ hsame) hk hcases).symm
      · rw [if_neg hk, if_neg hk']
        exact h k k' hsame hne

end Ledger

/-! ## Sessions -/

/-- **Paths that are texts** and loaded together are not registered under two spellings. -/
theorem FileSource.eq_of_same_of_texts {σ : Type} {src : FileSource σ} {files : σ}
    {sel : Selection} (htexts : ∀ f ∈ src.load files sel, ∃ t, f.path = .ofText t)
    {k k' : FileKey} (hk : k ∈ (src.keyed files sel).map Prod.fst)
    (hk' : k' ∈ (src.keyed files sel).map Prod.fst) (hsame : FileKey.same k k' = true) :
    k = k' := by
  rw [keys_keyed] at hk hk'
  obtain ⟨f, hf, rfl⟩ := List.mem_map.mp hk
  obtain ⟨g, hg, rfl⟩ := List.mem_map.mp hk'
  have hpath : ∀ f ∈ src.load files sel, .ofText f.path.shown = f.path := by
    intro f hf
    obtain ⟨t, ht⟩ := htexts f hf
    rw [ht, Path.shown_ofText]
  have hsymm : Std.Symm fun f g : LoadedFile => g.path.same f.path = false :=
    ⟨fun f g hfg => (Path.same_comm f.path g.path).trans hfg⟩
  rw [FileKey.same, hpath f hf, hpath g hg] at hsame
  obtain rfl : g = f := by
    by_contra hne
    exact Bool.noConfusion (hsame.symm.trans ((src.pairwise_load files sel).forall hg hf hne))
  rfl

namespace Session

variable {σ : Type} {src : FileSource σ} {α : Type u} {s : Session src α}

/-- **Which calls keep to one entry per path.**  In a session all files have paths, and numbers tell
paths apart by the texts that they are shown as, which for paths that are texts means by their
spelling.  A number once given stays, and every accepted event that is no deletion has its path
given one.  There is one entry per path exactly when no path has outlines under two spellings.

After a rebuild that nothing comes in between that is so, whatever there was before, exactly when
the files loaded are not shown under two spellings of one path, which never happens where all their
paths are texts.  From there on an event that nothing comes in between keeps it so exactly when
there is no text to commit for it, or its path has no outline under another spelling. -/
theorem Reachable.one_entry_per_path_iff (h : s.Reachable) (levels : Nat) :
    let l := s.curator.ledger
    (∀ file ∈ l.catalog.files, ∃ k, l.registry.path? file = some k) ∧
    (∀ p q : Path, ∀ file file', l.registry.get? p.shown = some file →
      l.registry.get? q.shown = some file' → (file = file' ↔ p.shown = q.shown)) ∧
    (∀ t u : Text, ∀ file file', l.registry.get? (Path.ofText t).shown = some file →
      l.registry.get? (Path.ofText u).shown = some file' →
        (file = file' ↔ Path.ofText t = Path.ofText u)) ∧
    (∀ step k file, l.registry.get? k = some file →
      (s.perform (interventions levels) step).2.curator.ledger.registry.get? k = some file) ∧
    (∀ events, ∀ e ∈ events, s.curator.selection.accepts e.path = true →
      (∀ p, e ≠ .deleted p) → ∃ file,
        (s.handleBatch (interventions levels) events).2.curator.ledger.registry.get?
          e.path.shown = some file) ∧
    (l.OneEntryPerPath ↔ ∀ k k', FileKey.same k k' = true → k ≠ k' →
      l.outlineAt? k = none ∨ l.outlineAt? k' = none) ∧
    (∀ sel, s.Quiet sel →
      let rebuilt := ((s.select sel).rebuild (interventions levels)).2.curator.ledger
      (rebuilt.OneEntryPerPath ↔ ∀ f ∈ src.load s.files sel, ∀ g ∈ src.load s.files sel,
        FileKey.same f.path.shown g.path.shown = true → f.path.shown = g.path.shown) ∧
      ((∀ f ∈ src.load s.files sel, ∃ t, f.path = .ofText t) → rebuilt.OneEntryPerPath)) ∧
    (l.OneEntryPerPath → ∀ e, s.curator.selection.accepts e.path = true → s.Undisturbed [e] →
      ((s.perform (interventions levels) (.handle e)).2.curator.ledger.OneEntryPerPath ↔
        src.textFor? s.files e = none ∨
          ∀ k, FileKey.same k e.path.shown = true → k ≠ e.path.shown →
            l.outlineAt? k = none)) := by
  intro l
  have hnumbers : ∀ {k k' : FileKey} {file file' : FileId}, l.registry.get? k = some file →
      l.registry.get? k' = some file' → (file = file' ↔ k = k') := by
    intro k k' file file' hk hk'
    constructor
    · rintro rfl
      exact Registry.eq_of_get?_eq_some hk hk'
    · rintro rfl
      exact Option.some.inj (hk.symm.trans hk')
  refine ⟨fun file hfile => ?_, fun p q file file' => hnumbers, fun t u file file' ht hu => ?_,
    fun step => ?_, ?_, Ledger.oneEntryPerPath_iff, fun sel hquiet => ?_,
    fun hone e haccepts hundisturbed => ?_⟩
  · obtain ⟨k, hk⟩ := h.registered file hfile
    exact ⟨k, (l.registry.get?_eq_some_iff k file).mp hk⟩
  · rw [hnumbers ht hu, Path.shown_ofText, Path.shown_ofText]
    exact ⟨congrArg Path.ofText, fun heq => by
      rw [← Path.shown_ofText t, heq, Path.shown_ofText]⟩
  · exact (growsInto_perform (growsInto_interventions levels) s step).get?
  · exact fun events e => exists_number_handleBatch (growsInto_interventions levels) s
  · have hone := (h.madeFrom_rebuild (interventions levels) hquiet).oneEntryPerPath_iff
    refine ⟨?_, fun htexts => hone.mpr fun k hk k' hk' =>
      FileSource.eq_of_same_of_texts htexts hk hk'⟩
    rw [hone, FileSource.keys_keyed]
    simp only [List.forall_mem_map]
  · obtain ⟨hcurator, -, -⟩ := handle_of_undisturbed (interventions levels) hundisturbed haccepts
    rw [hcurator]
    refine Ledger.oneEntryPerPath_handled_iff h.timely h.registered hone fun p hp => ?_
    rw [hp]
    rfl

/-- A session over a workspace of one file, which has been reported once. -/
def reported : Session FileTree.source Unit :=
  ((start .asCommitted justW (FileTree.empty.write (.ofText "w/a.tcl".toList) []) :
    Session FileTree.source Unit).perform
      (interventions 0) (.handle (.created (.ofText "w/a.tcl".toList)))).2

/-- The same file reported again, under another spelling of its path. -/
def respelled : Session FileTree.source Unit :=
  (reported.perform (interventions 0) (.handle (.changed (.ofText "w//a.tcl".toList)))).2

theorem reachable_reported : reported.Reachable := .perform 0 _ (.start _ _ _)

theorem reachable_respelled : respelled.Reachable := .perform 0 _ reachable_reported

theorem same_respelled : FileKey.same "w/a.tcl".toList "w//a.tcl".toList = true := by
  decide +kernel

/-- The second report makes two entries of the one file, and a rebuild makes them one again. -/
theorem one_entry_per_path_iff_respelled :
    reported.curator.ledger.OneEntryPerPath ∧ ¬respelled.curator.ledger.OneEntryPerPath ∧
      (respelled.rebuild (interventions 0)).2.curator.ledger.OneEntryPerPath := by
  have htext : FileTree.source.textFor? reported.files (.changed (.ofText "w//a.tcl".toList)) =
      some [] := by
    decide +kernel
  have houtline : (reported.curator.ledger.outlineAt? "w/a.tcl".toList).isSome = true := by
    decide +kernel
  have hfiles : reported.curator.ledger.catalog.files = [⟨0⟩] := by decide +kernel
  have hone : reported.curator.ledger.OneEntryPerPath := by
    intro file hfile file' hfile' _ _ _ _ _
    rw [hfiles, List.mem_singleton] at hfile hfile'
    exact hfile.trans hfile'.symm
  have hloaded : FileTree.source.load respelled.files justW =
      [⟨.ofText "w/a.tcl".toList, []⟩] := by
    decide +kernel
  obtain ⟨-, -, -, -, -, -, -, hevent⟩ := reachable_reported.one_entry_per_path_iff 0
  obtain ⟨-, -, -, -, -, -, hrebuild, -⟩ := reachable_respelled.one_entry_per_path_iff 0
  refine ⟨hone, fun hafter => ?_, (hrebuild justW (quiet_of_waiting rfl _)).2 fun f hf => ?_⟩
  · rcases (hevent hone _ (by decide +kernel) fun _ hw => absurd hw List.not_mem_nil).mp hafter with
      hnone | hall
    · exact absurd (htext.symm.trans hnone) (by simp)
    · rw [hall "w/a.tcl".toList (by decide +kernel) (by decide +kernel)] at houtline
      exact Bool.noConfusion houtline
  · rw [hloaded, List.mem_singleton] at hf
    exact ⟨_, congrArg LoadedFile.path hf⟩

/-- **Not every path has one number and one entry.**  Two spellings of a path are accepted alike,
yet each gets a number of its own, and an entry in the catalog. -/
theorem not_one_entry_per_path :
    (¬∀ s : Session FileTree.source Unit, s.Reachable → ∀ p q,
      s.curator.selection.accepts p = true → s.curator.selection.accepts q = true →
        p.same q = true → ∀ file file', s.curator.ledger.registry.get? p.shown = some file →
          s.curator.ledger.registry.get? q.shown = some file' → file = file') ∧
      ¬∀ s : Session FileTree.source Unit, s.Reachable → s.curator.ledger.OneEntryPerPath := by
  have hfirst : respelled.curator.ledger.registry.get? "w/a.tcl".toList = some ⟨0⟩ := by
    decide +kernel
  have hsecond : respelled.curator.ledger.registry.get? "w//a.tcl".toList = some ⟨1⟩ := by
    decide +kernel
  have hfiles : respelled.curator.ledger.catalog.files = [⟨0⟩, ⟨1⟩] := by decide +kernel
  constructor
  · intro h
    refine absurd (h respelled reachable_respelled (.ofText "w/a.tcl".toList)
      (.ofText "w//a.tcl".toList) (by decide +kernel) (by decide +kernel) same_respelled ⟨0⟩ ⟨1⟩
      ?_ ?_) (by decide)
    · rw [Path.shown_ofText, hfirst]
    · rw [Path.shown_ofText, hsecond]
  · intro h
    rw [Registry.get?_eq_some_iff] at hfirst hsecond
    exact absurd (h respelled reachable_respelled ⟨0⟩ (hfiles ▸ by simp) ⟨1⟩ (hfiles ▸ by simp)
      _ _ hfirst hsecond same_respelled) (by decide)

end Session

end TclAtlas
