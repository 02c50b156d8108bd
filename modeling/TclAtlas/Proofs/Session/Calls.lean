import TclAtlas.Proofs.Ledger.Run
import TclAtlas.Proofs.Session.Interventions
import TclAtlas.Proofs.Session.Phases

/-!
# Proofs/Session/Calls — a session reaches its ledger by calls only

Whatever happens in a session, interventions in the middle of calls included, its ledger changes by
calls with tickets that it has issued (`Session.Reachable.exists_run`).  So all that holds over runs
of calls holds of the ledgers of sessions.
-/

namespace TclAtlas

/-! ## Desks that reach one another -/

namespace Desk

/-- **One desk reaches another** by some run of calls. -/
def Reaches (d d' : Desk) : Prop := ∃ as, d.Run as d'

theorem Reaches.refl (d : Desk) : d.Reaches d := ⟨[], .nil d⟩

theorem Reaches.trans {d d' d'' : Desk} (h : d.Reaches d') (h' : d'.Reaches d'') :
    d.Reaches d'' := by
  obtain ⟨as, has⟩ := h
  obtain ⟨bs, hbs⟩ := h'
  exact ⟨as ++ bs, has.append hbs⟩

theorem Reaches.call {d : Desk} {a : LedgerCall} (h : d.Allows a) : d.Reaches (d.call a) :=
  ⟨[a], .single h⟩

/-- Tickets that were issued stay issued. -/
theorem updates_subset_call (d : Desk) : ∀ a, d.updates ⊆ (d.call a).updates
  | .issue _ => List.subset_cons_self _ _
  | .register _ | .commit _ _ | .beginRebuild | .commitRebuild _ _ | .setText _ _ | .removePath _
  | .rebuild _ => List.Subset.refl _

@[inherit_doc updates_subset_call]
theorem rebuilds_subset_call (d : Desk) : ∀ a, d.rebuilds ⊆ (d.call a).rebuilds
  | .beginRebuild => List.subset_cons_self _ _
  | .register _ | .commit _ _ | .issue _ | .commitRebuild _ _ | .setText _ _ | .removePath _
  | .rebuild _ => List.Subset.refl _

theorem Reaches.updates_subset {d d' : Desk} (h : d.Reaches d') : d.updates ⊆ d'.updates := by
  obtain ⟨as, has⟩ := h
  induction has with
  | nil => exact List.Subset.refl _
  | cons _ _ ih => exact List.Subset.trans (updates_subset_call _ _) ih

theorem Reaches.rebuilds_subset {d d' : Desk} (h : d.Reaches d') : d.rebuilds ⊆ d'.rebuilds := by
  obtain ⟨as, has⟩ := h
  induction has with
  | nil => exact List.Subset.refl _
  | cons _ _ ih => exact List.Subset.trans (rebuilds_subset_call _ _) ih

/-- **Receiving events** issues tickets. -/
theorem exists_reaches_issueAll : ∀ (es : List FileEvent) (d : Desk),
    ∃ d', d.Reaches d' ∧ d'.ledger = (d.ledger.issueAll es).2 ∧
      ∀ p ∈ (d.ledger.issueAll es).1, p.ticket ∈ d'.updates
  | [], d => ⟨d, .refl d, rfl, by simp [Ledger.issueAll]⟩
  | e :: es, d => by
    rw [Ledger.issueAll]
    rcases hfile : d.ledger.fileOf e with _ | ⟨file, l⟩
    · exact exists_reaches_issueAll es d
    · obtain ⟨d₁, h₁, rfl⟩ : ∃ d₁, d.Reaches d₁ ∧ d₁.ledger = l := by
        rcases e with p | p | p
        · exact ⟨d.call (.register p.shown), .call trivial,
            congrArg Prod.snd (Option.some.inj hfile)⟩
        · exact ⟨d.call (.register p.shown), .call trivial,
            congrArg Prod.snd (Option.some.inj hfile)⟩
        · obtain ⟨_, -, heq⟩ := Option.map_eq_some_iff.mp hfile
          exact ⟨d, .refl d, congrArg Prod.snd heq⟩
      have hissue : d₁.Reaches (d₁.call (.issue file)) := .call trivial
      obtain ⟨d₂, h₂, hl, htickets⟩ := exists_reaches_issueAll es (d₁.call (.issue file))
      refine ⟨d₂, (h₁.trans hissue).trans h₂, hl, fun p hp => ?_⟩
      rcases List.mem_cons.mp hp with rfl | hp
      · exact h₂.updates_subset List.mem_cons_self
      · exact htickets p hp

theorem exists_reaches_commitAll : ∀ (us : List (UpdateTicket × Option Outline)) (d : Desk),
    (∀ u ∈ us, u.1 ∈ d.updates) → ∃ d', d.Reaches d' ∧ d'.ledger = (d.ledger.commitAll us).2
  | [], d, _ => ⟨d, .refl d, rfl⟩
  | (t, o) :: us, d, h => by
    obtain ⟨ht, hus⟩ := List.forall_mem_cons.mp h
    have hcommit : d.Reaches (d.call (.commit t o)) := .call ht
    obtain ⟨d', h', hl⟩ := exists_reaches_commitAll us (d.call (.commit t o)) hus
    exact ⟨d', hcommit.trans h', hl⟩

theorem exists_reaches_registerAll : ∀ (ps : List FileKey) (d : Desk),
    ∃ d', d.Reaches d' ∧
      d'.ledger = { d.ledger with registry := (d.ledger.registry.registerAll ps).2 }
  | [], d => ⟨d, .refl d, rfl⟩
  | p :: ps, d => by
    have hregister : d.Reaches (d.call (.register p)) := .call trivial
    obtain ⟨d', h', hl⟩ := exists_reaches_registerAll ps (d.call (.register p))
    exact ⟨d', hregister.trans h', hl⟩

/-- **Concluding a rebuild** registers paths and commits. -/
theorem exists_reaches_concludeRebuild (d : Desk) {t : RebuildTicket} (ht : t ∈ d.rebuilds)
    (files : List (FileKey × Text)) :
    ∃ d', d.Reaches d' ∧ d'.ledger = (d.ledger.concludeRebuild t files).2 := by
  obtain ⟨d₁, h₁, hl⟩ := exists_reaches_registerAll (files.map Prod.fst) d
  have hcommit : d₁.Reaches (d₁.call (.commitRebuild t (d.ledger.rebuildOutlines files))) :=
    .call (h₁.rebuilds_subset ht)
  refine ⟨_, h₁.trans hcommit, ?_⟩
  rw [call, hl, Ledger.concludeRebuild_snd]

end Desk

/-! ## Sessions -/

namespace Session

variable {σ : Type} {src : FileSource σ} {α : Type u}

/-- **What happens to the ledger of a session** from one state to another is a run of calls,
whichever tickets have been issued. -/
def Evolves (s s' : Session src α) : Prop :=
  ∀ d : Desk, d.ledger = s.curator.ledger → ∃ d', d.Reaches d' ∧ d'.ledger = s'.curator.ledger

theorem Evolves.of_eq {s s' : Session src α} (h : s'.curator.ledger = s.curator.ledger) :
    s.Evolves s' := fun d hd => ⟨d, .refl d, hd.trans h.symm⟩

theorem Evolves.trans {s s' s'' : Session src α} (h : s.Evolves s') (h' : s'.Evolves s'') :
    s.Evolves s'' := by
  intro d hd
  obtain ⟨d₁, h₁, hd₁⟩ := h d hd
  obtain ⟨d₂, h₂, hd₂⟩ := h' d₁ hd₁
  exact ⟨d₂, h₁.trans h₂, hd₂⟩

theorem spanning_evolves : Spanning (@Evolves σ src α) :=
  ⟨fun _ => .of_eq rfl, .trans, fun _ _ => .of_eq rfl⟩

section

variable {inner : List (Step σ α) → Session src α → Session src α}
  (hinner : ∀ steps s, Evolves s (inner steps s))

include hinner

omit hinner in
/-- Each accepted event is committed with its own ticket. -/
theorem map_fst_scanAll : ∀ (ps : List Pending) (s : Session src α),
    (s.scanAll inner ps).1.map Prod.fst = ps.map Pending.ticket
  | [], _ => rfl
  | p :: ps, s => congrArg (p.ticket :: ·) (map_fst_scanAll ps (s.scan inner p).2)

omit hinner in
theorem exists_pending_of_mem_scanned {events : List FileEvent} {s : Session src α}
    {u : UpdateTicket × Option Outline} (hu : u ∈ (s.scanned inner events).1) :
    ∃ p ∈ (s.curator.receive events).1, p.ticket = u.1 := by
  have hticket : u.1 ∈ (s.curator.receive events).1.map Pending.ticket := by
    rw [← map_fst_scanAll]
    exact List.mem_map_of_mem hu
  exact List.mem_map.mp hticket

/-- **Handling events** issues tickets, reads files and commits. -/
theorem evolves_handleBatch (events : List FileEvent) (s : Session src α) :
    s.Evolves (s.handleBatch inner events).2 := by
  intro d hd
  obtain ⟨d₁, h₁, hl₁, htickets⟩ := Desk.exists_reaches_issueAll
    (events.filter fun e => s.curator.selection.accepts e.path) d
  rw [hd] at hl₁ htickets
  obtain ⟨d₂, h₂, hl₂⟩ := spanning_evolves.scanAll hinner (s.curator.receive events).1
    { s with curator := (s.curator.receive events).2 } d₁ hl₁
  obtain ⟨d₃, h₃, hl₃⟩ := Desk.exists_reaches_commitAll (s.scanned inner events).1 d₂ fun u hu => by
    obtain ⟨p, hp, heq⟩ := exists_pending_of_mem_scanned hu
    exact h₂.updates_subset (heq ▸ htickets p hp)
  refine ⟨d₃, (h₁.trans h₂).trans h₃, ?_⟩
  rw [handleBatch_eq, curator_settle, hl₃, hl₂]
  rfl

/-- **Rebuilding** takes a ticket, reads files and commits. -/
theorem evolves_rebuild (s : Session src α) : s.Evolves (s.rebuild inner).2 := by
  intro d hd
  have hbegin : d.Reaches (d.call .beginRebuild) := .call trivial
  obtain ⟨d₁, h₁, hl₁⟩ := spanning_evolves.load hinner s.curator.selection
    { s with curator := s.curator.beginRebuild.2 } (d.call .beginRebuild)
    (by rw [Desk.call, hd]; rfl)
  have hticket : s.curator.beginRebuild.1 ∈ (d.call .beginRebuild).rebuilds := by
    rw [Desk.call, hd]
    exact List.mem_cons_self
  obtain ⟨d₂, h₂, hl₂⟩ := Desk.exists_reaches_concludeRebuild d₁ (h₁.rebuilds_subset hticket) _
  refine ⟨d₂, (hbegin.trans h₁).trans h₂, ?_⟩
  rw [rebuild_eq, curator_conclude, hl₂, hl₁]
  rfl

theorem evolves_perform (s : Session src α) : ∀ step, s.Evolves (s.perform inner step).2
  | .alter _ | .intervene _ _ | .subscribe | .unsubscribe _
  | .observe _ => .of_eq rfl
  | .handle event => evolves_handleBatch hinner [event] s
  | .handleBatch events => evolves_handleBatch hinner events s
  | .rebuild => evolves_rebuild hinner s
  | .reconfigure sel =>
    (Evolves.of_eq rfl : s.Evolves { s with curator := { s.curator with selection := sel } }).trans
      (evolves_rebuild hinner _)

end

/-- **Interventions change the ledger by calls** as well, however deep they are nested. -/
theorem evolves_interventions (levels : Nat) (steps : List (Step σ α)) (s : Session src α) :
    s.Evolves (interventions levels steps s) :=
  spanning_evolves.interventions (fun _ hinner s step =>
    (evolves_perform hinner s step).trans (.of_eq rfl)) levels steps s

/-- **The sessions that come about**: steps are carried out, with interventions nested up to some
depth, and files change in between. -/
inductive Reachable : Session src α → Prop
  | start (order : Arrangement) (sel : Selection) (files : σ) : Reachable (start order sel files)
  | change {s : Session src α} (files : σ) : Reachable s → Reachable { s with files }
  | perform {s : Session src α} (levels : Nat) (step : Step σ α) :
    Reachable s → Reachable (s.perform (interventions levels) step).2

/-- **The ledger of a session comes about by a run of calls.** -/
theorem Reachable.exists_run {s : Session src α} (h : s.Reachable) :
    ∃ order as d, (Desk.fresh order).Run as d ∧ d.ledger = s.curator.ledger := by
  induction h with
  | start order sel _ => exact ⟨order, [], .fresh order, .nil _, rfl⟩
  | change _ _ ih => exact ih
  | @perform s levels step _ ih =>
    obtain ⟨order, as, d, hrun, hd⟩ := ih
    obtain ⟨d', ⟨bs, hrun'⟩, hd'⟩ := evolves_perform (evolves_interventions levels) s step d hd
    exact ⟨order, as ++ bs, d', hrun.append hrun', hd'⟩

theorem Reachable.timely {s : Session src α} (h : s.Reachable) : s.curator.ledger.Timely := by
  obtain ⟨order, as, d, hrun, hd⟩ := h.exists_run
  exact hd ▸ (hrun.sound (Desk.sound_fresh order)).timely

end Session

end TclAtlas
