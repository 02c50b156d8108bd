import TclAtlas.Curator

/-!
# Session — a curator at work on changing files

A session is a sequence of **steps**: changes to the files, and calls of the curator, which reads
the files from its source in the course of them.  A step may also be set to **intervene**: it waits
for the curator to list a given search path or to read a given file, and its own steps are then
carried out in the middle of that call, once.  So one call of the curator can run inside another.

Everything a session announces is recorded in `emissions`; the outcomes of the steps of
interventions are recorded in `outcomes`.
-/

namespace TclAtlas

/-- **A call by which a curator reaches the files.** -/
inductive SourceCall
  | collect (root : Path)
  | read (path : Path)
  deriving DecidableEq, Repr

/-- **A notice that was sent**, and to whom. -/
structure Emission where
  notice : Notice
  audience : List SubscriptionId
  deriving DecidableEq, Repr

/-- **A step of a session** over files with states of type `σ`; `α` is what is asked of the curator
and the files on the way. -/
inductive Step (σ : Type) (α : Type u)
  /-- Change the files. -/
  | alter (change : σ → σ)
  /-- At the next such call, carry out the steps in the middle of it. -/
  | intervene (call : SourceCall) (steps : List (Step σ α))
  | handle (event : FileEvent)
  | handleBatch (events : List FileEvent)
  | rebuild
  | reconfigure (selection : Selection)
  | subscribe
  | unsubscribe (id : SubscriptionId)
  | observe (view : Curator → σ → α)

/-- **The outcome of a step.** -/
inductive Outcome (α : Type u)
  | done
  /-- Whether the event changed the catalog. -/
  | handled (changed : Bool)
  /-- The files whose outlines changed. -/
  | batchHandled (files : List FileId)
  /-- The number of files, or `none` when another rebuild began in the meantime. -/
  | rebuilt (files : Option Nat)
  | subscribed (id : SubscriptionId)
  | unsubscribed (found : Bool)
  | observed (a : α)

/-- **The state of a session** of a curator that has its files from the given source. -/
structure Session {σ : Type} (src : FileSource σ) (α : Type u) where
  files : σ
  curator : Curator
  /-- The steps waiting for a call, in the order in which they were set. -/
  waiting : List (SourceCall × List (Step σ α))
  emissions : List Emission
  outcomes : List (Outcome α)

namespace Session

variable {σ : Type} {src : FileSource σ} {α : Type u}

/-- The session of a new curator. -/
def start (order : Arrangement) (sel : Selection) (files : σ) : Session src α :=
  ⟨files, .start order sel, [], [], []⟩

/-- Tell the listeners of a change. -/
def announce (s : Session src α) (n : Notice) : Session src α :=
  { s with emissions := s.emissions ++ [⟨n, s.curator.listeners.audience⟩] }

/-! ## Reaching the files

In this section `inner` carries out the steps of an intervention. -/

section

variable (inner : List (Step σ α) → Session src α → Session src α)

/-- Carry out the steps that wait for a call, if there are any. -/
def intervene (call : SourceCall) (s : Session src α) : Session src α :=
  match s.waiting.find? (·.1 == call) with
  | none => s
  | some (_, steps) =>
    inner steps { s with waiting := s.waiting.eraseP (·.1 == call) }

/-- List the selected files at a search path. -/
def collect (sel : Selection) (root : Path) (s : Session src α) :
    Except SourceError (List Path) × Session src α :=
  let s := s.intervene inner (.collect root)
  (src.collect s.files sel root, s)

/-- Read a file. -/
def read (p : Path) (s : Session src α) : Except SourceError Text × Session src α :=
  let s := s.intervene inner (.read p)
  (src.read s.files p, s)

/-- The selected files at each of several search paths; none where listing fails. -/
def collectAll (sel : Selection) : List Path → Session src α → List (List Path) × Session src α
  | [], s => ([], s)
  | root :: roots, s =>
    let (found, s) := s.collect inner sel root
    let (later, s) := collectAll sel roots s
    (found.toOption.getD [] :: later, s)

/-- The texts of several files, those left out that cannot be read. -/
def readAll : List Path → Session src α → List LoadedFile × Session src α
  | [], s => ([], s)
  | p :: ps, s =>
    let (text, s) := s.read inner p
    let (later, s) := readAll ps s
    ((text.toOption.map (⟨p, ·⟩)).toList ++ later, s)

/-- **Load a workspace.** -/
def load (sel : Selection) (s : Session src α) : List LoadedFile × Session src α :=
  let (found, s) := s.collectAll inner sel sel.searchPaths
  s.readAll inner (Path.merge found)

/-- What is to be committed for an accepted event: the outline of its file, or `none` when it was
deleted or cannot be read. -/
def scan (p : Pending) (s : Session src α) : Option Outline × Session src α :=
  match p.event with
  | .deleted _ => (none, s)
  | .created path | .changed path =>
    let (text, s) := s.read inner path
    (text.toOption.map (scanText p.ticket.file), s)

/-- What is to be committed for several accepted events, read in order. -/
def scanAll : List Pending → Session src α → List (UpdateTicket × Option Outline) × Session src α
  | [], s => ([], s)
  | p :: ps, s =>
    let (o, s) := s.scan inner p
    let (later, s) := scanAll ps s
    ((p.ticket, o) :: later, s)

/-! ## The calls of a curator -/

/-- **Apply several file events** with one commit and at most one notice.  Answers the files that
changed. -/
def handleBatch (events : List FileEvent) (s : Session src α) : List FileId × Session src α :=
  let (pending, c) := s.curator.receive events
  let (updates, s) := { s with curator := c }.scanAll inner pending
  let (files, c) := s.curator.commit updates
  let s := { s with curator := c }
  (files, if files.isEmpty then s else s.announce ⟨files, false⟩)

/-- **Rebuild the catalog** from the files of the workspace.  Answers their number, or `none` when
another rebuild began in the meantime. -/
def rebuild (s : Session src α) : Option Nat × Session src α :=
  let (ticket, c) := s.curator.beginRebuild
  let (loaded, s) := { s with curator := c }.load inner c.selection
  let (files, c) := s.curator.concludeRebuild ticket loaded
  let s := { s with curator := c }
  match files with
  | none => (none, s)
  | some files => (some files.length, s.announce ⟨files, true⟩)

/-- **Change the selection of files** and rebuild. -/
def reconfigure (sel : Selection) (s : Session src α) : Option Nat × Session src α :=
  { s with curator := { s.curator with selection := sel } }.rebuild inner

/-! ## Steps -/

/-- **Carry out a step.** -/
def perform (s : Session src α) : Step σ α → Outcome α × Session src α
  | .alter change => (.done, { s with files := change s.files })
  | .intervene call steps => (.done, { s with waiting := s.waiting ++ [(call, steps)] })
  | .handle event =>
    let (files, s) := s.handleBatch inner [event]
    (.handled !files.isEmpty, s)
  | .handleBatch events =>
    let (files, s) := s.handleBatch inner events
    (.batchHandled files, s)
  | .rebuild =>
    let (n, s) := s.rebuild inner
    (.rebuilt n, s)
  | .reconfigure sel =>
    let (n, s) := s.reconfigure inner sel
    (.rebuilt n, s)
  | .subscribe =>
    let (id, c) := s.curator.subscribe
    (.subscribed id, { s with curator := c })
  | .unsubscribe id =>
    let (found, c) := s.curator.unsubscribe id
    (.unsubscribed found, { s with curator := c })
  | .observe view => (.observed (view s.curator s.files), s)

/-- Carry out several steps, recording their outcomes. -/
def performAll (steps : List (Step σ α)) (s : Session src α) : Session src α :=
  steps.foldl (fun s step =>
    let (o, s) := s.perform inner step
    { s with outcomes := s.outcomes ++ [o] }) s

end

/-- Carry out the steps of an intervention, with interventions inside it up to the given number of
levels; beyond these nothing is carried out. -/
def interventions : Nat → List (Step σ α) → Session src α → Session src α
  | 0, _, s => s
  | levels + 1, steps, s => s.performAll (interventions levels) steps

end Session

/-! ## Whole sessions -/

mutual

/-- How often a step sets an intervention, in itself and in the steps of that. -/
def Step.settings {σ : Type} {α : Type u} : Step σ α → Nat
  | .intervene _ steps => 1 + settingsIn steps
  | _ => 0

/-- How often several steps set an intervention. -/
def Step.settingsIn {σ : Type} {α : Type u} : List (Step σ α) → Nat
  | [] => 0
  | s :: ss => settings s + settingsIn ss

end

/-- **What is reported of a step**: its outcome, the notices sent in the course of it, and the
outcomes of the interventions in it. -/
structure Report (α : Type u) where
  outcome : Outcome α
  emissions : List Emission
  interventions : List (Outcome α)

namespace Session

variable {σ : Type} {src : FileSource σ} {α : Type u}

/-- The reports of steps carried out one after the other, with interventions inside one another up
to the given number of levels. -/
def reports (levels : Nat) : List (Step σ α) → Session src α → List (Report α)
  | [], _ => []
  | step :: steps, s =>
    let (o, s) := { s with emissions := [], outcomes := [] }.perform (interventions levels) step
    ⟨o, s.emissions, s.outcomes⟩ :: reports levels steps s

/-- **A session from its start.**  Each setting of an intervention is carried out once at most, so
interventions are nested no deeper than there are settings. -/
def play (src : FileSource σ) (order : Arrangement) (sel : Selection) (files : σ)
    (steps : List (Step σ α)) : List (Report α) :=
  reports (Step.settingsIn steps) steps (start order sel files : Session src α)

end Session

end TclAtlas
