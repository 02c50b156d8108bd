import TclAtlas.Proofs.Catalog.Coherence
import TclAtlas.Proofs.Ledger.Run

/-!
# Proofs/Ledger/Rebuilding — what a rebuild leaves in the catalog

Whatever the calls, the catalog of a ledger is coherent (`Desk.Run.coherent`): a commit applies or
removes one outline, and a rebuild starts anew from outlines.  So a rebuild is told by the outlines
it leaves.  A superseded one changes nothing; any other one puts the outlines listed last for their
files in place of all others, except for the files committed since it began, which stay as they
are — those taken out since then stay out (`Desk.Run.rebuild_spares_newer`).
-/

namespace TclAtlas

/-! ## Ledgers keep their catalog coherent -/

namespace Ledger

theorem coherent_commit {l : Ledger} (h : l.catalog.Coherent) (t : UpdateTicket)
    (o : Option Outline) : (l.commit t o).2.catalog.Coherent := by
  rcases hstale : l.isStale t with _ | _
  · rw [commit_of_not_stale hstale]
    rcases o with _ | o
    · exact h.remove t.file
    · exact h.apply t.file o
  · rw [commit_of_stale hstale]
    exact h

theorem coherent_commitRebuild {l : Ledger} (h : l.catalog.Coherent) (t : RebuildTicket)
    (os : List (FileId × Outline)) : (l.commitRebuild t os).2.catalog.Coherent := by
  rw [commitRebuild]
  split
  · exact h
  · exact Catalog.coherent_ofOutlines _

theorem coherent_setText {l : Ledger} (h : l.catalog.Coherent) (p : FileKey) (text : Text) :
    (l.setText p text).2.catalog.Coherent := by
  rw [setText_snd]
  exact coherent_commit (l := ((l.register p).2.issue (l.register p).1).2) h _ _

theorem coherent_removePath {l : Ledger} (h : l.catalog.Coherent) (p : FileKey) :
    (l.removePath p).2.catalog.Coherent := by
  rcases l.removePath_snd p with hp | ⟨file, hp⟩ <;> rw [hp]
  · exact h
  · exact coherent_commit (l := (l.issue file).2) h _ none

theorem coherent_rebuild {l : Ledger} (h : l.catalog.Coherent) (files : List (FileKey × Text)) :
    (l.rebuild files).catalog.Coherent := by
  obtain ⟨r, os, hr⟩ := l.rebuild_eq files
  rw [hr]
  exact coherent_commitRebuild (l := { l.beginRebuild.2 with registry := r }) h _ os

end Ledger

namespace Desk

theorem coherent_call {d : Desk} (h : d.ledger.catalog.Coherent) :
    ∀ a, (d.call a).ledger.catalog.Coherent
  | .register _ | .issue _ | .beginRebuild => h
  | .commit t o => Ledger.coherent_commit h t o
  | .commitRebuild t os => Ledger.coherent_commitRebuild h t os
  | .setText p text => Ledger.coherent_setText h p text
  | .removePath p => Ledger.coherent_removePath h p
  | .rebuild files => Ledger.coherent_rebuild h files

/-- **Over a run the catalog stays coherent.** -/
theorem Run.coherent {d d' : Desk} {as : List LedgerCall} (h : d.Run as d')
    (hd : d.ledger.catalog.Coherent) : d'.ledger.catalog.Coherent := by
  induction h with
  | nil => exact hd
  | cons _ _ ih => exact ih (coherent_call hd _)

/-! ## Rebuilds -/

/-- **A rebuild never overwrites newer work**, whatever happened before.  One that another has
superseded is refused and changes nothing.  Any other one is done: a file with a later stamp than
the start of the rebuild keeps the outline it has, or has none as before; every other file gets the
outline listed last for it, or none when none is listed; and the tables follow. -/
theorem Run.rebuild_spares_newer {order : Arrangement} {d : Desk} {as : List LedgerCall}
    (h : (fresh order).Run as d) (r : RebuildTicket) (os : List (FileId × Outline)) :
    (r.generation ≠ d.ledger.generation → d.ledger.commitRebuild r os = (false, d.ledger)) ∧
    (r.generation = d.ledger.generation →
      (d.ledger.commitRebuild r os).1 = true ∧
      (∀ file stamp, d.ledger.stamp? file = some stamp → r.started < stamp →
        (d.ledger.commitRebuild r os).2.catalog.outline? file =
          d.ledger.catalog.outline? file) ∧
      (∀ file, (∀ stamp, d.ledger.stamp? file = some stamp → stamp ≤ r.started) →
        (d.ledger.commitRebuild r os).2.catalog.outline? file = os.reverse.lookup file) ∧
      (d.ledger.commitRebuild r os).2.catalog.TablesFollow) := by
  have hcoherent := h.coherent Catalog.coherent_empty
  refine ⟨fun hr => Ledger.commitRebuild_of_ne hr os, fun hr => ⟨?_, ?_, ?_, ?_⟩⟩
  · rw [Ledger.commitRebuild_fst]
    exact decide_eq_true hr
  · intro file stamp hstamp hlt
    have hnewer : file ∈ d.ledger.newerThan r :=
      (Ledger.mem_newerThan_iff _ r file).mpr ⟨stamp, hstamp, hlt⟩
    rw [Ledger.outline?_commitRebuild hr, if_pos hnewer]
  · intro file hold
    have hnewer : file ∉ d.ledger.newerThan r := by
      intro hmem
      obtain ⟨stamp, hstamp, hlt⟩ := (Ledger.mem_newerThan_iff _ r file).mp hmem
      exact Nat.not_le_of_lt hlt (hold stamp hstamp)
    rw [Ledger.outline?_commitRebuild hr, if_neg hnewer]
  · exact (Ledger.coherent_commitRebuild hcoherent r os).tablesFollow

/-- A file taken out after the rebuild began is not brought back; of the two outlines listed for
another file the last one stands. -/
theorem rebuild_spares_newer_removal :
    let last : Outline := { Outline.empty with namespaces := [['b']] }
    let issued := (fresh .asCommitted).call (.issue ⟨0⟩)
    let begun := (issued.call (.commit ⟨⟨0⟩, 1⟩ (some .empty))).call .beginRebuild
    let d := (begun.call (.issue ⟨0⟩)).call (.commit ⟨⟨0⟩, 3⟩ none)
    let os := [(⟨0⟩, .empty), (⟨1⟩, .empty), (⟨1⟩, last)]
    (d.ledger.commitRebuild ⟨1, 2⟩ os).1 = true ∧
      (d.ledger.commitRebuild ⟨1, 2⟩ os).2.catalog.outline? ⟨0⟩ = none ∧
      (d.ledger.commitRebuild ⟨1, 2⟩ os).2.catalog.outline? ⟨1⟩ = some last := by
  intro last issued begun d os
  have hrun : (fresh .asCommitted).Run _ d :=
    .cons (a := .issue ⟨0⟩) trivial (.cons (a := .commit ⟨⟨0⟩, 1⟩ (some .empty)) List.mem_cons_self
      (.cons (a := .beginRebuild) trivial (.cons (a := .issue ⟨0⟩) trivial
        (.single (a := .commit ⟨⟨0⟩, 3⟩ none) List.mem_cons_self))))
  obtain ⟨hdone, hnewer, hold, -⟩ := (hrun.rebuild_spares_newer ⟨1, 2⟩ os).2 rfl
  have hremoved : d.ledger.catalog.outline? ⟨0⟩ = none := rfl
  have hnever : d.ledger.stamp? ⟨1⟩ = none := rfl
  refine ⟨hdone, (hnewer ⟨0⟩ 3 rfl (by decide)).trans hremoved, hold ⟨1⟩ ?_⟩
  intro stamp hstamp
  exact absurd (hnever.symm.trans hstamp) (by simp)

end Desk

end TclAtlas
