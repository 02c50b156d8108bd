import TclAtlas.Curator
import TclAtlas.Proofs.Ledger.Run
import TclAtlas.Proofs.Registry.FirstSight

/-!
# Proofs/Ledger/Sights — which paths a ledger gets to see

Of the calls of a ledger, some show it paths: those that register a path, set a text, or rebuild the
catalog from a list of files.  Nothing else reaches its registry, committing and taking files out
least of all (`Desk.registry_call`).  So the registry after a run of calls is the one that has seen
these paths (`Desk.Run.registry_eq`).  Events that are received register their paths as well, those
of files that are gone excepted (`Ledger.registry_issueAll`).
-/

namespace TclAtlas

/-- **The paths that a call shows to a ledger**, in order. -/
def LedgerCall.sights : LedgerCall → List FileKey
  | .register p | .setText p _ => [p]
  | .rebuild files => files.map Prod.fst
  | .issue _ | .commit _ _ | .beginRebuild | .commitRebuild _ _ | .removePath _ => []

/-- The path that an accepted event shows to a ledger, as a text.  Deletions show none. -/
def FileEvent.sight? : FileEvent → Option FileKey
  | .created p | .changed p => some p.shown
  | .deleted _ => none

namespace Ledger

/-- **Concluding a rebuild** registers the paths of its files, even if it comes too late. -/
theorem registry_concludeRebuild (l : Ledger) (t : RebuildTicket) (files : List (FileKey × Text)) :
    (l.concludeRebuild t files).2.registry =
      (l.registry.registerAll (files.map Prod.fst)).2 := by
  rw [concludeRebuild_snd, registry_commitRebuild]

theorem registry_removePath (l : Ledger) (p : FileKey) :
    (l.removePath p).2.registry = l.registry := by
  rcases l.removePath_snd p with h | ⟨file, h⟩
  · rw [h]
  · rw [h, registry_commit]
    rfl

theorem registry_fileOf {l l' : Ledger} {e : FileEvent} {file : FileId}
    (h : l.fileOf e = some (file, l')) :
    l'.registry = (l.registry.registerAll e.sight?.toList).2 := by
  rcases e with p | p | p
  · exact congrArg (·.2.registry) (Option.some.inj h).symm
  · exact congrArg (·.2.registry) (Option.some.inj h).symm
  · obtain ⟨_, -, heq⟩ := Option.map_eq_some_iff.mp h
    exact congrArg (·.2.registry) heq.symm

/-- **Receiving events registers their paths**, except those of deletions. -/
theorem registry_issueAll : ∀ (es : List FileEvent) (l : Ledger),
    (l.issueAll es).2.registry = (l.registry.registerAll (es.filterMap FileEvent.sight?)).2
  | [], _ => rfl
  | e :: es, l => by
    rw [issueAll]
    have hsights : (e :: es).filterMap FileEvent.sight? =
        e.sight?.toList ++ es.filterMap FileEvent.sight? := by
      rw [List.filterMap_cons]
      rcases e.sight? with _ | p <;> rfl
    rw [hsights, Registry.registerAll_append_snd]
    rcases hfile : l.fileOf e with _ | ⟨file, l'⟩
    · -- only a deletion has no file
      rcases e with p | p | p
      · exact absurd hfile (by simp [fileOf])
      · exact absurd hfile (by simp [fileOf])
      · exact registry_issueAll es l
    · have hrest := registry_issueAll es (l'.issue file).2
      rw [← registry_fileOf hfile]
      exact hrest

end Ledger

namespace Desk

/-- **A call registers the paths that it shows**, and changes the registry in no other way. -/
theorem registry_call (d : Desk) (a : LedgerCall) :
    (d.call a).ledger.registry = (d.ledger.registry.registerAll a.sights).2 := by
  cases a with
  | register p => rfl
  | issue file => rfl
  | commit t o => exact d.ledger.registry_commit t o
  | beginRebuild => rfl
  | commitRebuild t os => exact d.ledger.registry_commitRebuild t os
  | setText p text =>
    change (d.ledger.setText p text).2.registry = _
    rw [Ledger.setText_snd, Ledger.registry_commit]
    rfl
  | removePath p => exact d.ledger.registry_removePath p
  | rebuild files => exact d.ledger.beginRebuild.2.registry_concludeRebuild _ files

/-- **A run of calls registers the paths that they show**, in order. -/
theorem Run.registry_eq {d d' : Desk} {as : List LedgerCall} (h : d.Run as d') :
    d'.ledger.registry = (d.ledger.registry.registerAll (as.flatMap LedgerCall.sights)).2 := by
  induction h with
  | nil => rfl
  | @cons d d' a as _ _ ih =>
    rw [ih, registry_call, List.flatMap_cons, Registry.registerAll_append_snd]

end Desk

end TclAtlas
