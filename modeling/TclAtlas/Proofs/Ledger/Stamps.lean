import TclAtlas.Proofs.Ledger.Run

/-!
# Proofs/Ledger/Stamps — once overtaken, always overtaken

Every file of the catalog has the stamp of its last commit (`Ledger.Stamped`): an outline comes into
the catalog by a commit or a rebuild, and both leave a stamp, while the files that a rebuild keeps
are those with a stamp newer than its own.  Together with the growth of stamps this says what a
commit is worth: from then on no ticket of the file with a smaller stamp is heeded, whatever
rebuilds come in between (`Desk.Run.overtaken_for_good`).
-/

namespace TclAtlas

/-! ## Files of the catalog are stamped -/

namespace Ledger

/-- **Every file of the catalog has a stamp.** -/
def Stamped (l : Ledger) : Prop :=
  ∀ file ∈ l.catalog.files, ∃ stamp, l.stamp? file = some stamp

theorem stamped_fresh (order : Arrangement) : (fresh order).Stamped :=
  fun _ h => absurd h List.not_mem_nil

/-- A stamp may be replaced, but is never lost. -/
theorem Advances.exists_stamp {l l' : Ledger} (h : l.Advances l') {file : FileId}
    (hfile : ∃ stamp, l.stamp? file = some stamp) : ∃ stamp, l'.stamp? file = some stamp := by
  obtain ⟨stamp, hs⟩ := hfile
  obtain ⟨stamp', hs', -⟩ := h file stamp hs
  exact ⟨stamp', hs'⟩

namespace Stamped

variable {l : Ledger}

theorem register (h : l.Stamped) (p : FileKey) : (l.register p).2.Stamped := h

theorem issue (h : l.Stamped) (file : FileId) : (l.issue file).2.Stamped := h

theorem beginRebuild (h : l.Stamped) : l.beginRebuild.2.Stamped := h

/-- **A commit stamps its file**, and adds no other to the catalog. -/
theorem commit (h : l.Stamped) (t : UpdateTicket) (o : Option Outline) :
    (l.commit t o).2.Stamped := by
  intro file hfile
  rw [Catalog.mem_files_iff, outline?_commit] at hfile
  rw [stamp?_commit]
  split at hfile
  · next hown => exact ⟨t.stamp, if_pos hown⟩
  · next hother =>
    rw [if_neg hother]
    exact h file ((Catalog.mem_files_iff _ file).mpr hfile)

/-- **A rebuild stamps the files that it lists**, and keeps no others but newer ones. -/
theorem commitRebuild (h : l.Stamped) (t : RebuildTicket) (os : List (FileId × Outline)) :
    (l.commitRebuild t os).2.Stamped := by
  intro file hfile
  by_cases hg : t.generation = l.generation
  · rw [Catalog.mem_files_iff, outline?_commitRebuild hg] at hfile
    by_cases hnewer : file ∈ l.newerThan t
    · obtain ⟨stamp, hs, -⟩ := (mem_newerThan_iff l t file).mp hnewer
      exact (l.advances_commitRebuild t os).exists_stamp ⟨stamp, hs⟩
    · rw [if_neg hnewer, ← Entries.mem_map_fst_iff] at hfile
      have hlisted : file ∈ os.map Prod.fst := by simpa using hfile
      rw [stamp?_commitRebuild hg, if_pos ⟨hnewer, Or.inl hlisted⟩]
      exact ⟨t.started, rfl⟩
  · rw [commitRebuild_of_ne hg] at hfile ⊢
    exact h file hfile

theorem setText (h : l.Stamped) (p : FileKey) (text : Text) : (l.setText p text).2.Stamped := by
  rw [setText_snd]
  exact ((h.register p).issue _).commit _ _

theorem removePath (h : l.Stamped) (p : FileKey) : (l.removePath p).2.Stamped := by
  rcases l.removePath_snd p with hp | ⟨file, hp⟩ <;> rw [hp]
  · exact h
  · exact (h.issue file).commit _ none

theorem rebuild (h : l.Stamped) (files : List (FileKey × Text)) : (l.rebuild files).Stamped := by
  obtain ⟨r, os, hr⟩ := l.rebuild_eq files
  have hbegun : Stamped { l.beginRebuild.2 with registry := r } := h.beginRebuild
  rw [hr]
  exact hbegun.commitRebuild _ os

end Stamped

/-- **A ticket that is heeded overtakes** all tickets of its file with smaller stamps. -/
theorem isStale_of_commit {l : Ledger} {t : UpdateTicket} (ht : l.isStale t = false)
    (o : Option Outline) {t' : UpdateTicket} (hfile : t'.file = t.file) (hlt : t'.stamp < t.stamp) :
    (l.commit t o).2.isStale t' = true := by
  have hstamp : (l.commit t o).2.stamp? t'.file = some t.stamp := by
    rw [stamp?_commit, if_pos ⟨hfile, ht⟩]
  exact (isStale_iff _ t').mpr ⟨t.stamp, hstamp, hlt⟩

end Ledger

/-! ## Runs -/

namespace Desk

theorem stamped_call {d : Desk} (h : d.ledger.Stamped) : ∀ a, (d.call a).ledger.Stamped
  | .register _ | .issue _ | .beginRebuild => h
  | .commit t o => h.commit t o
  | .commitRebuild t os => h.commitRebuild t os
  | .setText p text => h.setText p text
  | .removePath p => h.removePath p
  | .rebuild files => h.rebuild files

/-- **Over a run the files of the catalog stay stamped.** -/
theorem Run.stamped {d d' : Desk} {as : List LedgerCall} (h : d.Run as d')
    (hd : d.ledger.Stamped) : d'.ledger.Stamped := by
  induction h with
  | nil => exact hd
  | cons _ _ ih => exact ih (stamped_call hd _)

/-- **Once overtaken, always overtaken.**  After any run every file of the catalog has a stamp, and
every stamp lies below the next one.  In any continuation no stamp falls back; and once a ticket has
been committed that was not stale, with an outline or a removal, no ticket of the same file with a
smaller stamp changes anything any more. -/
theorem Run.overtaken_for_good {order : Arrangement} {d : Desk} {as : List LedgerCall}
    (h : (fresh order).Run as d) :
    (∀ file ∈ d.ledger.catalog.files, ∃ stamp, d.ledger.stamp? file = some stamp) ∧
    (∀ file stamp, d.ledger.stamp? file = some stamp → stamp < d.ledger.nextStamp) ∧
    (∀ bs d', d.Run bs d' → ∀ file stamp, d.ledger.stamp? file = some stamp →
      ∃ stamp', d'.ledger.stamp? file = some stamp' ∧ stamp ≤ stamp') ∧
    (∀ t o, d.ledger.isStale t = false → ∀ bs d', (d.call (.commit t o)).Run bs d' →
      ∀ t' : UpdateTicket, t'.file = t.file → t'.stamp < t.stamp →
        ∀ o', d'.ledger.commit t' o' = (false, d'.ledger)) := by
  refine ⟨h.stamped (Ledger.stamped_fresh order), (h.sound (sound_fresh order)).timely,
    fun bs d' hrun => hrun.advances, ?_⟩
  intro t o ht bs d' hrun t' hfile hlt o'
  have hstale : (d.call (.commit t o)).ledger.isStale t' = true :=
    Ledger.isStale_of_commit ht o hfile hlt
  exact Ledger.commit_of_stale (hrun.advances.isStale hstale) o'

/-- The removal of a file that is not there answers that nothing was done, yet it overtakes the
ticket issued before, and does so still after a rebuild that lists the file. -/
theorem overtaken_by_removal :
    let d := ((fresh .asCommitted).call (.issue ⟨0⟩)).call (.issue ⟨0⟩)
    let d' := ((d.call (.commit ⟨⟨0⟩, 2⟩ none)).call .beginRebuild).call
      (.commitRebuild ⟨1, 3⟩ [(⟨0⟩, .empty)])
    (d.ledger.commit ⟨⟨0⟩, 2⟩ none).1 = false ∧ d.ledger.isStale ⟨⟨0⟩, 2⟩ = false ∧
      d'.ledger.catalog.files = [⟨0⟩] ∧
      d'.ledger.commit ⟨⟨0⟩, 1⟩ none = (false, d'.ledger) := by
  intro d d'
  have hd : (fresh .asCommitted).Run _ d :=
    .cons (a := .issue ⟨0⟩) trivial (.single (a := .issue ⟨0⟩) trivial)
  have hd' : (d.call (.commit ⟨⟨0⟩, 2⟩ none)).Run _ d' := .cons (a := .beginRebuild) trivial
    (.single (a := .commitRebuild ⟨1, 3⟩ [(⟨0⟩, .empty)]) List.mem_cons_self)
  obtain ⟨-, -, -, hovertaken⟩ := hd.overtaken_for_good
  exact ⟨by decide, by decide, by decide,
    hovertaken ⟨⟨0⟩, 2⟩ none (by decide) _ d' hd' ⟨⟨0⟩, 1⟩ rfl (by decide) none⟩

end Desk

end TclAtlas
