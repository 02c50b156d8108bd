import TclAtlas.Proofs.Ledger.Effects
import TclAtlas.Proofs.Registry.Growth
import TclAtlas.Proofs.Session.Phases
import TclAtlas.Workspace.Loading

/-!
# Proofs/Session/Batches — a batch of events is its events one by one

A batch issues the tickets of all its events before it commits any, while events handled one by one
have each ticket issued after the commit before it.  This makes no difference: what tickets depend
on, the registry and the next stamp, a commit neither reads nor changes (`Ledger.commit_withFront`,
`Ledger.issueAll_withFront`).  So a batch may be cut anywhere (`Ledger.absorb_append`).

As long as no intervention changes the files on the way, all events of a batch are read from the
same files.  So the batch leaves the curator as the events one by one do, and answers the files of
those events that changed something; only the notices differ, of which the batch sends at most one
(`Session.handleBatch_agrees_with_each`).
-/

namespace TclAtlas

/-! ## Batches at a ledger -/

/-- The text that there is to commit for an event: that of the file, unless it was deleted. -/
def FileSource.textFor? {σ : Type} (src : FileSource σ) (files : σ) : FileEvent → Option Text
  | .deleted _ => none
  | .created p | .changed p => (src.read files p).toOption

/-- What is to be committed for an accepted event, by the text that there is for it. -/
def Pending.update (text? : FileEvent → Option Text) (p : Pending) :
    UpdateTicket × Option Outline :=
  (p.ticket, (text? p.event).map (scanText p.ticket.file))

namespace Ledger

/-- The ledger with another registry and next stamp, which is what tickets depend on. -/
def withFront (l : Ledger) (r : Registry) (n : Nat) : Ledger :=
  { l with registry := r, nextStamp := n }

/-- **A commit** neither reads nor changes the registry and the next stamp. -/
theorem commit_withFront (l : Ledger) (r : Registry) (n : Nat) (t : UpdateTicket)
    (o : Option Outline) :
    (l.withFront r n).commit t o = ((l.commit t o).1, (l.commit t o).2.withFront r n) := by
  have hstale : (l.withFront r n).isStale t = l.isStale t := rfl
  rcases h : l.isStale t <;> rw [h] at hstale
  · rw [commit_of_not_stale h, commit_of_not_stale hstale]
    rfl
  · rw [commit_of_stale h, commit_of_stale hstale]

theorem fileOf_withFront (l₀ l : Ledger) (e : FileEvent) :
    (l₀.withFront l.registry l.nextStamp).fileOf e =
      (l.fileOf e).map fun x => (x.1, l₀.withFront x.2.registry x.2.nextStamp) := by
  rcases e with p | p | p
  · rfl
  · rfl
  · have hget : (l₀.withFront l.registry l.nextStamp).registry.get? p.shown =
        l.registry.get? p.shown := rfl
    rw [fileOf, fileOf, hget]
    rcases l.registry.get? p.shown <;> rfl

/-- **Tickets** depend on the registry and the next stamp only, and change nothing else. -/
theorem issueAll_withFront (l₀ : Ledger) : ∀ (es : List FileEvent) (l : Ledger),
    (l₀.withFront l.registry l.nextStamp).issueAll es =
      ((l.issueAll es).1, l₀.withFront (l.issueAll es).2.registry (l.issueAll es).2.nextStamp)
  | [], _ => rfl
  | e :: es, l => by
    rw [issueAll, issueAll, fileOf_withFront]
    rcases l.fileOf e with _ | ⟨file, l₁⟩
    · exact issueAll_withFront l₀ es l
    · have hrest := issueAll_withFront l₀ es (l₁.issue file).2
      exact congrArg (fun x => (⟨(l₁.issue file).1, e⟩ :: x.1, x.2)) hrest

theorem issueAll_snd (l : Ledger) (es : List FileEvent) : (l.issueAll es).2 =
    l.withFront (l.issueAll es).2.registry (l.issueAll es).2.nextStamp :=
  congrArg Prod.snd (issueAll_withFront l es l)

/-- **Issuing tickets and committing** may change places. -/
theorem issueAll_commit (l : Ledger) (t : UpdateTicket) (o : Option Outline)
    (es : List FileEvent) :
    (l.commit t o).2.issueAll es = ((l.issueAll es).1, ((l.issueAll es).2.commit t o).2) ∧
      ((l.issueAll es).2.commit t o).1 = (l.commit t o).1 := by
  have hissued := l.issueAll_snd es
  have hcommitted := l.commit_withFront (l.issueAll es).2.registry (l.issueAll es).2.nextStamp t o
  rw [← hissued] at hcommitted
  -- the commit leaves the front of the ledger as it is
  have hfront : (l.commit t o).2.withFront l.registry l.nextStamp = (l.commit t o).2 := by
    rw [← l.registry_commit t o, ← l.nextStamp_commit t o]
    rfl
  have hafter := issueAll_withFront (l.commit t o).2 es l
  rw [hfront] at hafter
  exact ⟨by rw [hafter, hcommitted], by rw [hcommitted]⟩

variable (text? : FileEvent → Option Text) {l l₁ : Ledger} {e : FileEvent} {file : FileId}

/-- **Take in a batch of events**: issue all tickets, then commit the texts there are.  Answers the
files that changed. -/
def absorb (l : Ledger) (es : List FileEvent) : List FileId × Ledger :=
  (l.issueAll es).2.commitAll ((l.issueAll es).1.map (Pending.update text?))

/-- **Take in one event** for a file that has been looked up. -/
def absorbOne (l : Ledger) (file : FileId) (e : FileEvent) : Bool × Ledger :=
  (l.issue file).2.commit (l.issue file).1 ((text? e).map (scanText file))

theorem absorb_cons_of_fileOf_eq_none (h : l.fileOf e = none) (es : List FileEvent) :
    l.absorb text? (e :: es) = l.absorb text? es := by
  rw [absorb, issueAll, h]
  rfl

/-- **The first event of a batch** may be taken in before tickets are issued for the others. -/
theorem absorb_cons_of_fileOf_eq_some (h : l.fileOf e = some (file, l₁)) (es : List FileEvent) :
    l.absorb text? (e :: es) =
      (if (l₁.absorbOne text? file e).1 then
          file :: ((l₁.absorbOne text? file e).2.absorb text? es).1
        else ((l₁.absorbOne text? file e).2.absorb text? es).1,
        ((l₁.absorbOne text? file e).2.absorb text? es).2) := by
  obtain ⟨hafter, hdone⟩ := (l₁.issue file).2.issueAll_commit (l₁.issue file).1
    ((text? e).map (scanText file)) es
  have hissued : l.issueAll (e :: es) = (⟨(l₁.issue file).1, e⟩ ::
      ((l₁.issue file).2.issueAll es).1, ((l₁.issue file).2.issueAll es).2) := by
    rw [issueAll, h]
  rw [absorb, hissued, absorb, absorbOne, hafter, ← hdone]
  rfl

/-- **A batch may be cut anywhere.** -/
theorem absorb_append (fs : List FileEvent) : ∀ (es : List FileEvent) (l : Ledger),
    l.absorb text? (es ++ fs) =
      ((l.absorb text? es).1 ++ ((l.absorb text? es).2.absorb text? fs).1,
        ((l.absorb text? es).2.absorb text? fs).2)
  | [], _ => rfl
  | e :: es, l => by
    rw [List.cons_append]
    rcases h : l.fileOf e with _ | ⟨file, l₁⟩
    · rw [absorb_cons_of_fileOf_eq_none text? h, absorb_cons_of_fileOf_eq_none text? h,
        absorb_append fs es]
    · rw [absorb_cons_of_fileOf_eq_some text? h, absorb_cons_of_fileOf_eq_some text? h,
        absorb_append fs es]
      split <;> rfl

/-- **The file of an event** is that of its path, and looking it up takes no number away. -/
theorem get?_of_fileOf (h : l.fileOf e = some (file, l₁)) :
    l₁.registry.get? e.path.shown = some file ∧
      ∀ q f, l.registry.get? q = some f → l₁.registry.get? q = some f := by
  have hregister : ∀ p, l.register p = (file, l₁) → l₁.registry.get? p = some file ∧
      ∀ q f, l.registry.get? q = some f → l₁.registry.get? q = some f := by
    rintro p ⟨⟩
    exact ⟨l.registry.get?_register p, fun q f hq => Registry.get?_register_of_get? hq p⟩
  rcases e with p | p | p
  · exact hregister p.shown (Option.some.inj h)
  · exact hregister p.shown (Option.some.inj h)
  · obtain ⟨file', hget, ⟨⟩⟩ := Option.map_eq_some_iff.mp h
    exact ⟨hget, fun _ _ hq => hq⟩

theorem registry_absorbOne (l : Ledger) (file : FileId) (e : FileEvent) :
    (l.absorbOne text? file e).2.registry = l.registry := registry_commit ..

/-- **Numbers stay** over a batch. -/
theorem get?_absorb {q : FileKey} {f : FileId} : ∀ (es : List FileEvent) {l : Ledger},
    l.registry.get? q = some f → (l.absorb text? es).2.registry.get? q = some f
  | [], _, h => h
  | e :: es, l, h => by
    rcases hfile : l.fileOf e with _ | ⟨file, l₁⟩
    · rw [absorb_cons_of_fileOf_eq_none text? hfile]
      exact get?_absorb es h
    · rw [absorb_cons_of_fileOf_eq_some text? hfile]
      refine get?_absorb es ?_
      rw [registry_absorbOne]
      exact (get?_of_fileOf hfile).2 q f h

/-- **One event** changes nothing, or the file of its path. -/
theorem absorb_singleton_cases (l : Ledger) (e : FileEvent) :
    (l.absorb text? [e]).1 = [] ∨ ∃ file, (l.absorb text? [e]).1 = [file] ∧
      (l.absorb text? [e]).2.registry.get? e.path.shown = some file := by
  rcases h : l.fileOf e with _ | ⟨file, l₁⟩
  · rw [absorb_cons_of_fileOf_eq_none text? h]
    exact Or.inl rfl
  · rw [absorb_cons_of_fileOf_eq_some text? h]
    rcases (l₁.absorbOne text? file e).1
    · exact Or.inl rfl
    · refine Or.inr ⟨file, rfl, ?_⟩
      exact (congrArg (·.get? e.path.shown) (l₁.registry_absorbOne text? file e)).trans
        (get?_of_fileOf h).1

/-- The ledger after the update for an event: `text?` is what there is to commit. -/
def handled (l : Ledger) (e : FileEvent) (text? : Option Text) : Ledger :=
  match l.fileOf e with
  | none => l
  | some (file, l) => ((l.issue file).2.commit (l.issue file).1 (text?.map (scanText file))).2

/-- Taking in one event is the update for it. -/
theorem absorb_singleton_snd (l : Ledger) (e : FileEvent) :
    (l.absorb text? [e]).2 = l.handled e (text? e) := by
  rw [handled]
  rcases h : l.fileOf e with _ | ⟨file, l₁⟩
  · rw [absorb_cons_of_fileOf_eq_none text? h]
    rfl
  · rw [absorb_cons_of_fileOf_eq_some text? h]
    rfl

theorem event_mem_of_mem_issueAll : ∀ {es : List FileEvent} {l : Ledger},
    ∀ p ∈ (l.issueAll es).1, p.event ∈ es
  | [], _, _, h => absurd h (List.not_mem_nil)
  | e :: es, l, p, h => by
    rw [issueAll] at h
    rcases hfile : l.fileOf e with _ | ⟨file, l₁⟩ <;> rw [hfile] at h
    · exact List.mem_cons_of_mem e (event_mem_of_mem_issueAll p h)
    · rcases List.mem_cons.mp h with rfl | h
      · exact List.mem_cons_self
      · exact List.mem_cons_of_mem e (event_mem_of_mem_issueAll p h)

end Ledger

/-! ## Batches in a session -/

namespace Session

variable {σ : Type} {src : FileSource σ} {α : Type u}
  (inner : List (Step σ α) → Session src α → Session src α) {s : Session src α}

/-- **A call that no intervention waits for** is not interrupted. -/
theorem intervene_of_not_waiting {call : SourceCall} (h : ∀ w ∈ s.waiting, w.1 ≠ call) :
    s.intervene inner call = s := by
  have hnone : s.waiting.find? (·.1 == call) = none :=
    List.find?_eq_none.mpr fun w hw => by simpa using h w hw
  rw [intervene, hnone]

theorem read_of_not_waiting {p : Path} (h : ∀ w ∈ s.waiting, w.1 ≠ .read p) :
    s.read inner p = (src.read s.files p, s) := by
  rw [read, intervene_of_not_waiting inner h]

theorem scan_of_not_waiting {p : Pending} (h : ∀ w ∈ s.waiting, w.1 ≠ .read p.event.path) :
    s.scan inner p = ((src.textFor? s.files p.event).map (scanText p.ticket.file), s) := by
  rcases p with ⟨t, p | p | p⟩
  · simp only [scan, read_of_not_waiting inner (p := p) h]
    rfl
  · simp only [scan, read_of_not_waiting inner (p := p) h]
    rfl
  · rfl

/-- **No intervention waits** for a file of these events to be read. -/
def Undisturbed (s : Session src α) (events : List FileEvent) : Prop :=
  ∀ w ∈ s.waiting, ∀ e ∈ events, w.1 ≠ .read e.path

theorem scanAll_of_undisturbed : ∀ {ps : List Pending}, s.Undisturbed (ps.map Pending.event) →
    s.scanAll inner ps = (ps.map (Pending.update (src.textFor? s.files)), s)
  | [], _ => rfl
  | p :: ps, h => by
    have hfirst : ∀ w ∈ s.waiting, w.1 ≠ .read p.event.path := fun w hw =>
      h w hw p.event List.mem_cons_self
    have hrest : s.Undisturbed (ps.map Pending.event) := fun w hw e he =>
      h w hw e (List.mem_cons_of_mem _ he)
    rw [scanAll, scan_of_not_waiting inner hfirst]
    simp only [scanAll_of_undisturbed hrest]
    rfl

/-- The events of a batch that a session does not ignore. -/
def accepted (s : Session src α) (events : List FileEvent) : List FileEvent :=
  events.filter fun e => s.curator.selection.accepts e.path

/-- **A batch that is not disturbed** is taken in by the ledger, with the texts of the files. -/
theorem handleBatch_of_undisturbed {events : List FileEvent} (h : s.Undisturbed events) :
    s.handleBatch inner events =
      ((s.curator.ledger.absorb (src.textFor? s.files) (s.accepted events)).1,
        s.settle (s.curator.ledger.absorb (src.textFor? s.files) (s.accepted events)).1
          (s.curator.ledger.absorb (src.textFor? s.files) (s.accepted events)).2) := by
  let s' : Session src α := { s with curator := (s.curator.receive events).2 }
  have hpending : s'.Undisturbed ((s.curator.receive events).1.map Pending.event) := by
    intro w hw e he
    obtain ⟨p, hp, rfl⟩ := List.mem_map.mp he
    have hevent := Ledger.event_mem_of_mem_issueAll p hp
    exact h w hw p.event (List.mem_filter.mp hevent).1
  have hscan := scanAll_of_undisturbed inner hpending
  rw [handleBatch]
  simp only [s'] at hscan
  simp only [hscan]
  rfl

/-- **One event that is not disturbed** is taken in, and its outcome shows whether it changed
something. -/
theorem perform_handle_of_undisturbed {e : FileEvent} (h : s.Undisturbed [e]) :
    s.perform inner (.handle e) =
      (.handled !(s.curator.ledger.absorb (src.textFor? s.files) (s.accepted [e])).1.isEmpty,
        s.settle (s.curator.ledger.absorb (src.textFor? s.files) (s.accepted [e])).1
          (s.curator.ledger.absorb (src.textFor? s.files) (s.accepted [e])).2) := by
  rw [perform, handleBatch_of_undisturbed inner h]

/-- **An accepted event that is not disturbed** commits what there is for it, and touches nothing
but the ledger and the record of emissions. -/
theorem handle_of_undisturbed {e : FileEvent} (h : s.Undisturbed [e])
    (he : s.curator.selection.accepts e.path = true) :
    (s.perform inner (.handle e)).2.curator =
        { s.curator with ledger := s.curator.ledger.handled e (src.textFor? s.files e) } ∧
      (s.perform inner (.handle e)).2.files = s.files ∧
      (s.perform inner (.handle e)).2.waiting = s.waiting := by
  have haccepted : s.accepted [e] = [e] := by simp [accepted, he]
  rw [perform_handle_of_undisturbed inner h, haccepted]
  refine ⟨?_, files_settle .., waiting_settle ..⟩
  rw [curator_settle, Ledger.absorb_singleton_snd]

/-- The first of several events is handled, its outcome recorded, and then the others. -/
theorem performAll_handle_cons {e : FileEvent} (h : s.Undisturbed [e]) (steps : List (Step σ α)) :
    s.performAll inner (.handle e :: steps) =
      let r := s.curator.ledger.absorb (src.textFor? s.files) (s.accepted [e])
      ({ s.settle r.1 r.2 with outcomes := s.outcomes ++ [.handled !r.1.isEmpty] } :
        Session src α).performAll inner steps := by
  rw [performAll, List.foldl_cons, perform_handle_of_undisturbed inner h]
  simp only [outcomes_settle]
  rfl

theorem absorb_accepted_cons (s : Session src α) (l : Ledger) (text? : FileEvent → Option Text)
    (e : FileEvent) (es : List FileEvent) :
    l.absorb text? (s.accepted (e :: es)) =
      ((l.absorb text? (s.accepted [e])).1 ++
        ((l.absorb text? (s.accepted [e])).2.absorb text? (s.accepted es)).1,
      ((l.absorb text? (s.accepted [e])).2.absorb text? (s.accepted es)).2) := by
  have haccepted : s.accepted (e :: es) = s.accepted [e] ++ s.accepted es :=
    List.filter_append [e] es
  rw [haccepted, Ledger.absorb_append]

/-- An event that is not ignored changes nothing, or the file of its path. -/
theorem absorb_accepted_singleton_cases (s : Session src α) (text? : FileEvent → Option Text)
    (e : FileEvent) :
    (s.curator.ledger.absorb text? (s.accepted [e])).1 = [] ∨
      ∃ file, (s.curator.ledger.absorb text? (s.accepted [e])).1 = [file] ∧
        (s.curator.ledger.absorb text? (s.accepted [e])).2.registry.get? e.path.shown =
          some file := by
  rcases haccepts : s.curator.selection.accepts e.path
  · have hnone : s.accepted [e] = [] := by simp [accepted, haccepts]
    rw [hnone]
    exact Or.inl rfl
  · have hone : s.accepted [e] = [e] := by simp [accepted, haccepts]
    rw [hone]
    exact s.curator.ledger.absorb_singleton_cases text? e

/-- **Events handled one by one** leave the ledger that takes them in as a batch.  Each tells the
listeners if it changed something, and the outcomes show which did. -/
theorem performAll_handle : ∀ {events : List FileEvent} {s : Session src α}, s.Undisturbed events →
    let r := s.curator.ledger.absorb (src.textFor? s.files) (s.accepted events)
    let each := s.performAll inner (events.map .handle)
    each.curator = { s.curator with ledger := r.2 } ∧ each.files = s.files ∧
      each.waiting = s.waiting ∧
      each.emissions = s.emissions ++
        r.1.map (fun file => ⟨⟨[file], false⟩, s.curator.listeners.audience⟩) ∧
      ∃ changed : List Bool, changed.length = events.length ∧
        each.outcomes = s.outcomes ++ changed.map .handled ∧
        r.1.map some = ((events.zip changed).filter Prod.snd).map
          fun x => r.2.registry.get? x.1.path.shown
  | [], _, _ =>
    ⟨rfl, rfl, rfl, (List.append_nil _).symm, [], rfl, (List.append_nil _).symm, rfl⟩
  | e :: es, s, h => by
    have hfirst : s.Undisturbed [e] := fun w hw e' he' =>
      h w hw e' (List.mem_singleton.mp he' ▸ List.mem_cons_self)
    let r₁ := s.curator.ledger.absorb (src.textFor? s.files) (s.accepted [e])
    let r₂ := r₁.2.absorb (src.textFor? s.files) (s.accepted es)
    let s₁ : Session src α :=
      { s.settle r₁.1 r₁.2 with outcomes := s.outcomes ++ [.handled !r₁.1.isEmpty] }
    have hcurator : s₁.curator = { s.curator with ledger := r₁.2 } := curator_settle ..
    have hfiles : s₁.files = s.files := files_settle ..
    have hwaiting : s₁.waiting = s.waiting := waiting_settle ..
    have hemissions : s₁.emissions = s.emissions ++
        if r₁.1 = [] then [] else [⟨⟨r₁.1, false⟩, s.curator.listeners.audience⟩] :=
      emissions_settle ..
    have hperform : s.performAll inner ((e :: es).map .handle) =
        s₁.performAll inner (es.map .handle) := performAll_handle_cons inner hfirst _
    have hrest : s₁.Undisturbed es := fun w hw e' he' =>
      h w (hwaiting ▸ hw) e' (List.mem_cons_of_mem e he')
    have hr₂ : s₁.curator.ledger.absorb (src.textFor? s₁.files) (s₁.accepted es) = r₂ := by
      rw [accepted, hcurator, hfiles]
      rfl
    have hr : s.curator.ledger.absorb (src.textFor? s.files) (s.accepted (e :: es)) =
        (r₁.1 ++ r₂.1, r₂.2) := absorb_accepted_cons ..
    obtain ⟨hc, hf, hw, hem, changed, hlength, houtcomes, hids⟩ := performAll_handle hrest
    rw [hr₂] at hc hem hids
    rw [hperform, hr]
    refine ⟨?_, hf.trans hfiles, hw.trans hwaiting, ?_, (!r₁.1.isEmpty) :: changed, ?_, ?_, ?_⟩
    · rw [hc, hcurator]
    · rw [hem, hemissions, hcurator, List.map_append, List.append_assoc]
      rcases s.absorb_accepted_singleton_cases (src.textFor? s.files) e with hnone | ⟨file, hone, -⟩
      · simp [r₁, hnone]
      · simp [r₁, hone]
    · simp [hlength]
    · rw [houtcomes]
      simp [s₁]
    · rcases s.absorb_accepted_singleton_cases (src.textFor? s.files) e with
        hnone | ⟨file, hone, hget⟩
      · simp [r₁, hnone, hids]
      · have hlast : r₂.2.registry.get? e.path.shown = some file := Ledger.get?_absorb _ _ hget
        simp [r₁, hone, hids, hlast]

/-- **A batch is the sequence of its events.**  As long as no intervention waits for one of the
files to be read, a batch leaves the same curator — registry, catalog, stamps and all — as its
events handled one by one.  It answers, in order, the numbers that the paths of those events have
which changed something.  It sends one notice with these numbers, if there are any, while the events
one by one send a notice for each. -/
theorem handleBatch_agrees_with_each {s : Session src α} {events : List FileEvent}
    (h : s.Undisturbed events) :
    let batch := s.handleBatch inner events
    let each := s.performAll inner (events.map .handle)
    batch.2.curator = each.curator ∧ batch.2.files = each.files ∧
      batch.2.waiting = each.waiting ∧
      (∃ changed : List Bool, changed.length = events.length ∧
        each.outcomes = s.outcomes ++ changed.map .handled ∧
        batch.1.map some = ((events.zip changed).filter Prod.snd).map
          fun x => each.curator.ledger.registry.get? x.1.path.shown) ∧
      batch.2.emissions = s.emissions ++
        (if batch.1 = [] then [] else [⟨⟨batch.1, false⟩, s.curator.listeners.audience⟩]) ∧
      each.emissions = s.emissions ++
        batch.1.map fun file => ⟨⟨[file], false⟩, s.curator.listeners.audience⟩ := by
  intro batch each
  have hbatch : batch = _ := handleBatch_of_undisturbed inner h
  obtain ⟨hc, hf, hw, hem, changed, hlength, houtcomes, hids⟩ := performAll_handle inner h
  refine ⟨?_, ?_, ?_, ⟨changed, hlength, houtcomes, ?_⟩, ?_, ?_⟩
  · rw [hbatch, curator_settle]
    exact hc.symm
  · rw [hbatch, files_settle]
    exact hf.symm
  · rw [hbatch, waiting_settle]
    exact hw.symm
  · rw [hbatch, hids]
    simp only [each, hc]
  · rw [hbatch, emissions_settle]
  · rw [hbatch]
    exact hem

/-- A session over the tree with one empty file, in which an intervention waits for a listing. -/
def listingSession : Session FileTree.source Unit where
  files := FileTree.empty.write (.ofText "w/a.tcl".toList) []
  curator := .start .asCommitted (Selection.nowhere.addRoot (.ofText ['w']))
  waiting := [(.collect (.ofText ['w']), [.rebuild])]
  emissions := []
  outcomes := []

/-- The file is gone before it was ever seen, then seen, gone and seen again. -/
def fourReports : List FileEvent :=
  [.deleted (.ofText "w/a.tcl".toList), .created (.ofText "w/a.tcl".toList),
    .deleted (.ofText "w/a.tcl".toList), .changed (.ofText "w/a.tcl".toList)]

theorem undisturbed_fourReports : listingSession.Undisturbed fourReports := by
  intro w hw e _
  obtain rfl := List.mem_singleton.mp hw
  exact SourceCall.noConfusion

theorem handleBatch_fourReports :
    (listingSession.handleBatch (interventions 1) fourReports).1 = [⟨0⟩, ⟨0⟩, ⟨0⟩] := by
  decide +kernel

/-- All reports of a file that comes and goes are taken in as one batch. -/
theorem handleBatch_agrees_with_each_same_path :
    listingSession.Undisturbed fourReports ∧
      (listingSession.handleBatch (interventions 1) fourReports).1 = [⟨0⟩, ⟨0⟩, ⟨0⟩] ∧
      (listingSession.handleBatch (interventions 1) fourReports).2.curator =
        (listingSession.performAll (interventions 1) (fourReports.map .handle)).curator ∧
      (listingSession.handleBatch (interventions 1) fourReports).2.emissions =
        [⟨⟨[⟨0⟩, ⟨0⟩, ⟨0⟩], false⟩, []⟩] := by
  obtain ⟨hcurator, -, -, -, hemissions, -⟩ :=
    handleBatch_agrees_with_each (interventions 1) undisturbed_fourReports
  rw [handleBatch_fourReports] at hemissions
  exact ⟨undisturbed_fourReports, handleBatch_fourReports, hcurator, hemissions⟩

end Session

end TclAtlas
