import TclAtlas.Proofs.Ledger.Sights
import TclAtlas.Proofs.Session.Calls
import TclAtlas.Proofs.Session.Rebuilding

/-!
# Proofs/Session/Sights — which paths a session gets to see

A step of a session shows paths to the registry twice.  First, before any file is read, it shows
those of the accepted events (`Session.received`); a deletion shows none.  Last, before it commits,
it shows the files loaded for a rebuild (`Session.listed`), and it does so even when another rebuild
has begun since.  In between, interventions show what they come across (`Session.Registers`).  Thus
the registry of a session numbers the firsts of all that it has seen (`registry_grows_by_sights`).
-/

namespace TclAtlas

namespace Session

variable {σ : Type} {src : FileSource σ} {α : Type u}

/-- The registry of a session. -/
def registry (s : Session src α) : Registry := s.curator.ledger.registry

/-- **The paths that a step shows before it reads files**: those of the accepted events, except
deletions. -/
def received (s : Session src α) : Step σ α → List FileKey
  | .handle event => ([event].filter fun e => s.curator.selection.accepts e.path).filterMap
      FileEvent.sight?
  | .handleBatch events => (events.filter fun e => s.curator.selection.accepts e.path).filterMap
      FileEvent.sight?
  | _ => []

/-- **The paths that a step shows after it has read files**: those of the files loaded for a
rebuild. -/
def listed (inner : List (Step σ α) → Session src α → Session src α) (s : Session src α) :
    Step σ α → List FileKey
  | .rebuild => (s.loaded inner).1.map fun f => f.path.shown
  | .reconfigure sel => ((s.select sel).loaded inner).1.map fun f => f.path.shown
  | _ => []

/-- **A later session has registered some more paths.** -/
def Registers (s s' : Session src α) : Prop := ∃ ps, s'.registry = (s.registry.registerAll ps).2

theorem spanning_registers : Spanning (@Registers σ src α) where
  refl _ := ⟨[], rfl⟩
  trans := by
    rintro s s' s'' ⟨ps, hps⟩ ⟨qs, hqs⟩
    exact ⟨ps ++ qs, by rw [hqs, hps, Registry.registerAll_append_snd]⟩
  waiting _ _ := ⟨[], rfl⟩

/-- What is read registers paths in interventions only, so none if nothing waits. -/
theorem Registers.exists_middle {s s' : Session src α} (h : s.Registers s')
    (hquiet : s.waiting = [] → s'.registry = s.registry) :
    ∃ middle, s'.registry = (s.registry.registerAll middle).2 ∧ (s.waiting = [] → middle = []) := by
  by_cases hwaiting : s.waiting = []
  · exact ⟨[], hquiet hwaiting, fun _ => rfl⟩
  · obtain ⟨middle, hmiddle⟩ := h
    exact ⟨middle, hmiddle, fun h => absurd h hwaiting⟩

section

variable {inner : List (Step σ α) → Session src α → Session src α}
  (hinner : ∀ steps s, Registers s (inner steps s)) (s : Session src α)

include hinner

/-- **Handling events** registers the paths of those that are accepted, except deletions, and then
what interventions come across. -/
theorem registry_handleBatch (events : List FileEvent) : ∃ middle,
    (s.handleBatch inner events).2.registry =
      (s.registry.registerAll (s.received (.handleBatch events) ++ middle)).2 ∧
      (s.waiting = [] → middle = []) := by
  let begun : Session src α := { s with curator := (s.curator.receive events).2 }
  have hbegun : begun.registry = (s.registry.registerAll (s.received (.handleBatch events))).2 :=
    s.curator.ledger.registry_issueAll _
  have hcommit : (s.handleBatch inner events).2.registry = (s.scanned inner events).2.registry := by
    rw [handleBatch_eq, registry, curator_settle]
    exact Ledger.registry_commitAll _ _
  have hread : begun.Registers (s.scanned inner events).2 :=
    spanning_registers.scanAll hinner (s.curator.receive events).1 begun
  obtain ⟨middle, hmiddle, hwaiting⟩ := hread.exists_middle fun hwaiting => by
    have hundisturbed : begun.Undisturbed ((s.curator.receive events).1.map Pending.event) :=
      fun w hw => absurd (hwaiting ▸ hw) List.not_mem_nil
    exact congrArg (·.2.registry) (scanAll_of_undisturbed inner hundisturbed)
  exact ⟨middle, by rw [Registry.registerAll_append_snd, ← hbegun, hcommit, hmiddle], hwaiting⟩

/-- **Rebuilding** registers what interventions come across while the workspace is loaded, and then
the paths of the files loaded, whether or not another rebuild has begun. -/
theorem registry_rebuild : ∃ middle,
    (s.rebuild inner).2.registry =
      (s.registry.registerAll (middle ++ (s.loaded inner).1.map fun f => f.path.shown)).2 ∧
      (s.waiting = [] → middle = []) := by
  let begun : Session src α := { s with curator := s.curator.beginRebuild.2 }
  have hread : begun.Registers (s.loaded inner).2 :=
    spanning_registers.load hinner s.curator.selection begun
  obtain ⟨middle, hmiddle, hwaiting⟩ := hread.exists_middle fun hwaiting =>
    congrArg (·.2.registry) (load_of_quiet inner (quiet_of_waiting hwaiting s.curator.selection))
  refine ⟨middle, ?_, hwaiting⟩
  rw [rebuild_eq, registry, curator_conclude, Registry.registerAll_append_snd]
  refine (Ledger.registry_concludeRebuild ..).trans ?_
  have hbegun : (s.loaded inner).2.curator.ledger.registry = (s.registry.registerAll middle).2 :=
    hmiddle
  rw [hbegun, List.map_map]
  rfl

/-- **What a step registers**, in order. -/
theorem registry_perform (step : Step σ α) : ∃ middle,
    (s.perform inner step).2.registry =
      (s.registry.registerAll (s.received step ++ middle ++ s.listed inner step)).2 ∧
      (s.waiting = [] → middle = []) := by
  cases step with
  | handle event =>
    obtain ⟨middle, hmiddle, hwaiting⟩ := registry_handleBatch hinner s [event]
    have hnone : s.listed inner (.handle event) = [] := rfl
    exact ⟨middle, by rw [hnone, List.append_nil]; exact hmiddle, hwaiting⟩
  | handleBatch events =>
    obtain ⟨middle, hmiddle, hwaiting⟩ := registry_handleBatch hinner s events
    have hnone : s.listed inner (.handleBatch events) = [] := rfl
    exact ⟨middle, by rw [hnone, List.append_nil]; exact hmiddle, hwaiting⟩
  | rebuild => exact registry_rebuild hinner s
  | reconfigure sel => exact registry_rebuild hinner (s.select sel)
  | alter | intervene | subscribe | unsubscribe | observe =>
    exact ⟨[], rfl, fun _ => rfl⟩

theorem registers_perform (step : Step σ α) : s.Registers (s.perform inner step).2 := by
  obtain ⟨middle, hmiddle, -⟩ := registry_perform hinner s step
  exact ⟨_, hmiddle⟩

end

/-- **Interventions register paths**, and change the registry in no other way. -/
theorem registers_interventions (levels : Nat) (steps : List (Step σ α)) (s : Session src α) :
    s.Registers (interventions levels steps s) :=
  spanning_registers.interventions (fun _ hinner s step => registers_perform hinner s step)
    levels steps s

theorem registers_performAll (levels : Nat) (steps : List (Step σ α)) (s : Session src α) :
    s.Registers (s.performAll (interventions levels) steps) :=
  spanning_registers.performAll (registers_perform (registers_interventions levels)) steps s

/-- **The registry of a session** numbers the firsts of some paths. -/
theorem Reachable.exists_numbers {s : Session src α} (h : s.Reachable) :
    ∃ ps, s.registry.Numbers ps := by
  induction h with
  | start _ _ _ => exact ⟨[], Registry.numbers_empty⟩
  | change _ _ ih => exact ih
  | @perform s levels step _ ih =>
    obtain ⟨ps, hps⟩ := ih
    obtain ⟨middle, hmiddle, -⟩ := registry_perform (registers_interventions levels) s step
    exact ⟨_, hmiddle ▸ hps.registerAll _⟩

end Session

/-! ## Registries everywhere -/

/-- **A registry grows by what it sees.**  After any calls of a new registry it numbers the firsts
of the paths registered, numbers and paths are inverse to each other, and the numbers answered are
the first ones, in order.  The registry of a ledger numbers the firsts of the paths that its calls
show it.  That of a session numbers the firsts of what it has seen, to which each step adds the
paths of accepted events other than deletions, what interventions come across while files are read,
and the files loaded for a rebuild.  In all of these, numbers and paths are kept for good. -/
theorem registry_grows_by_sights {σ : Type} {src : FileSource σ} {α : Type u} :
    (∀ cs : List Registry.Call, (Registry.empty.callAll cs).2.Numbers
        (cs.filterMap Registry.Call.sight?) ∧
      ((Registry.empty.callAll cs).1.filterMap id).eraseDups =
        Registry.firstNumbers (Registry.empty.callAll cs).2.size ∧
      ∀ cs', (Registry.empty.callAll cs).2.KeptBy ((Registry.empty.callAll cs).2.callAll cs').2) ∧
    (∀ order as d, (Desk.fresh order).Run as d →
      d.ledger.registry.Numbers (as.flatMap LedgerCall.sights) ∧
      ∀ bs d', d.Run bs d' → d.ledger.registry.KeptBy d'.ledger.registry) ∧
    ∀ s : Session src α, s.Reachable → (∃ ps, s.registry.Numbers ps) ∧
      (∀ ps, s.registry.Numbers ps → ∀ levels step, ∃ middle,
        (s.perform (Session.interventions levels) step).2.registry.Numbers
          (ps ++ (s.received step ++ middle ++ s.listed (Session.interventions levels) step)) ∧
        (s.waiting = [] → middle = [])) ∧
      ∀ levels steps,
        s.registry.KeptBy (s.performAll (Session.interventions levels) steps).registry := by
  refine ⟨fun cs => ⟨?_, ?_, fun cs' => ?_⟩, fun order as d h => ⟨?_, fun bs d' h' => ?_⟩,
    fun s hs => ⟨hs.exists_numbers, fun ps hps levels step => ?_, fun levels steps => ?_⟩⟩
  · rw [Registry.callAll_snd]
    exact Registry.numbers_empty.registerAll _
  · have hnone : ([] : List FileId).eraseDups = Registry.firstNumbers Registry.empty.size := rfl
    exact Registry.eraseDups_answers hnone cs
  · rw [Registry.callAll_snd _ cs']
    exact Registry.keptBy_registerAll _ _
  · rw [h.registry_eq]
    exact Registry.numbers_empty.registerAll _
  · rw [h'.registry_eq]
    exact Registry.keptBy_registerAll _ _
  · obtain ⟨middle, hmiddle, hwaiting⟩ :=
      Session.registry_perform (Session.registers_interventions levels) s step
    exact ⟨middle, hmiddle ▸ hps.registerAll _, hwaiting⟩
  · obtain ⟨ps, hps⟩ := Session.registers_performAll levels steps s
    rw [hps]
    exact Registry.keptBy_registerAll _ _

/-- A file is set, another is taken out that was never there, the first is taken out, and then the
other is set: it gets the second number.  A batch of a new session reports the deletion of an
unknown file and the creation of another one, which gets the first number. -/
theorem registry_grows_by_sights_removed :
    (∃ d, (Desk.fresh .asCommitted).Run [.setText "a.tcl".toList [], .removePath "b.tcl".toList,
        .removePath "a.tcl".toList, .setText "b.tcl".toList []] d ∧
      d.ledger.registry.path? ⟨1⟩ = some "b.tcl".toList ∧
      d.ledger.registry.get? "b.tcl".toList = some ⟨1⟩ ∧ d.ledger.registry.size = 2) ∧
    (Session.start .asCommitted .nowhere .empty : Session FileTree.source Unit).Reachable ∧
      ((Session.start .asCommitted .nowhere .empty : Session FileTree.source Unit).perform
        (Session.interventions 0) (.handleBatch [.deleted (.ofText "a.tcl".toList),
          .created (.ofText "b.tcl".toList)])).2.registry.path? ⟨0⟩ = some "b.tcl".toList := by
  obtain ⟨-, hdesk, hsession⟩ := @registry_grows_by_sights _ FileTree.source Unit
  refine ⟨?_, .start _ _ _, ?_⟩
  · have hrun : ∃ d, (Desk.fresh .asCommitted).Run [.setText "a.tcl".toList [],
        .removePath "b.tcl".toList, .removePath "a.tcl".toList, .setText "b.tcl".toList []] d :=
      ⟨_, .cons trivial (.cons trivial (.cons trivial (.cons trivial (.nil _))))⟩
    obtain ⟨d, hd⟩ := hrun
    obtain ⟨hnumbers, -⟩ := hdesk _ _ d hd
    have hpath : d.ledger.registry.path? ⟨1⟩ = some "b.tcl".toList := hnumbers.path? 1
    exact ⟨d, hd, hpath, (hnumbers.inverse _ _).mp hpath, hnumbers.size⟩
  · obtain ⟨-, hstep, -⟩ := hsession (Session.start .asCommitted .nowhere .empty) (.start _ _ _)
    obtain ⟨middle, hnumbers, hmiddle⟩ := hstep [] Registry.numbers_empty 0 (.handleBatch
      [.deleted (.ofText "a.tcl".toList), .created (.ofText "b.tcl".toList)])
    obtain rfl := hmiddle rfl
    exact hnumbers.path? 0

end TclAtlas
