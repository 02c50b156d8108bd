import TclAtlas.Session

/-!
# Proofs/Session/Phases — a call reads files, then commits

Every call of a curator that concerns the files (`Request`) goes in two parts.  First it issues its
tickets and reads files, and this is where interventions take place (`Session.afterReading`); then
it commits and tells the listeners, and there nothing comes in between.  A batch and a rebuild are
given here as the one part after the other: `Session.handleBatch_eq`, `Session.rebuild_eq`.
-/

namespace TclAtlas

/-- **What a curator is called for** that concerns the files. -/
inductive Request
  | handle (event : FileEvent)
  | handleBatch (events : List FileEvent)
  | rebuild
  | reconfigure (selection : Selection)

namespace Request

/-- The step that makes the call. -/
def step {σ : Type} {α : Type u} : Request → Step σ α
  | .handle event => .handle event
  | .handleBatch events => .handleBatch events
  | .rebuild => .rebuild
  | .reconfigure sel => .reconfigure sel

/-- Whether the call is for a rebuild. -/
def isRebuild : Request → Bool
  | .rebuild | .reconfigure _ => true
  | _ => false

end Request

namespace Session

variable {σ : Type} {src : FileSource σ} {α : Type u}
  (inner : List (Step σ α) → Session src α → Session src α) (s : Session src α)

/-! ## Reading -/

/-- **A batch once its files are read**: what is to be committed, and the session by then. -/
def scanned (events : List FileEvent) : List (UpdateTicket × Option Outline) × Session src α :=
  ({ s with curator := (s.curator.receive events).2 } : Session src α).scanAll inner
    (s.curator.receive events).1

/-- **A rebuild once the workspace is loaded**: the files, and the session by then. -/
def loaded : List LoadedFile × Session src α :=
  ({ s with curator := s.curator.beginRebuild.2 } : Session src α).load inner s.curator.selection

/-- The session with another selection of files. -/
def select (sel : Selection) : Session src α :=
  { s with curator := { s.curator with selection := sel } }

/-- **The session when a call has read its files**, and is about to commit. -/
def afterReading : Request → Session src α
  | .handle event => (s.scanned inner [event]).2
  | .handleBatch events => (s.scanned inner events).2
  | .rebuild => (s.loaded inner).2
  | .reconfigure sel => ((s.select sel).loaded inner).2

/-! ## Committing -/

variable {s}

/-- **The session after a commit** of its ledger: the listeners are told of the files that changed,
if there are any. -/
def settle (s : Session src α) (files : List FileId) (l : Ledger) : Session src α :=
  let s := { s with curator := { s.curator with ledger := l } }
  if files.isEmpty then s else s.announce ⟨files, false⟩

theorem curator_settle (files : List FileId) (l : Ledger) :
    (s.settle files l).curator = { s.curator with ledger := l } := by
  rw [settle]
  split <;> rfl

theorem files_settle (files : List FileId) (l : Ledger) : (s.settle files l).files = s.files := by
  rw [settle]
  split <;> rfl

theorem waiting_settle (files : List FileId) (l : Ledger) :
    (s.settle files l).waiting = s.waiting := by
  rw [settle]
  split <;> rfl

theorem outcomes_settle (files : List FileId) (l : Ledger) :
    (s.settle files l).outcomes = s.outcomes := by
  rw [settle]
  split <;> rfl

theorem emissions_settle (files : List FileId) (l : Ledger) :
    (s.settle files l).emissions = s.emissions ++
      if files = [] then [] else [⟨⟨files, false⟩, s.curator.listeners.audience⟩] := by
  rw [settle]
  rcases files with _ | ⟨file, files⟩
  · exact (List.append_nil _).symm
  · rfl

/-- **The session after a rebuild** of its ledger: the listeners are told, unless it was refused. -/
def conclude (s : Session src α) (files? : Option (List FileId)) (l : Ledger) : Session src α :=
  let s := { s with curator := { s.curator with ledger := l } }
  match files? with
  | none => s
  | some files => s.announce ⟨files, true⟩

theorem curator_conclude (files? : Option (List FileId)) (l : Ledger) :
    (s.conclude files? l).curator = { s.curator with ledger := l } := by
  rcases files? with _ | files <;> rfl

theorem files_conclude (files? : Option (List FileId)) (l : Ledger) :
    (s.conclude files? l).files = s.files := by
  rcases files? with _ | files <;> rfl

theorem waiting_conclude (files? : Option (List FileId)) (l : Ledger) :
    (s.conclude files? l).waiting = s.waiting := by
  rcases files? with _ | files <;> rfl

theorem outcomes_conclude (files? : Option (List FileId)) (l : Ledger) :
    (s.conclude files? l).outcomes = s.outcomes := by
  rcases files? with _ | files <;> rfl

theorem emissions_conclude (files? : Option (List FileId)) (l : Ledger) :
    (s.conclude files? l).emissions = s.emissions ++
      (files?.map fun files => ⟨⟨files, true⟩, s.curator.listeners.audience⟩).toList := by
  rcases files? with _ | files
  · exact (List.append_nil _).symm
  · rfl

/-! ## The one after the other -/

variable (s)

/-- The commit of a batch once its files are read: the files that changed, and the ledger after
it. -/
def batchCommit (events : List FileEvent) : List FileId × Ledger :=
  (s.scanned inner events).2.curator.ledger.commitAll (s.scanned inner events).1

/-- The commit of a rebuild once the workspace is loaded: the files, unless it was refused, and the
ledger after it. -/
def rebuildCommit : Option (List FileId) × Ledger :=
  (s.loaded inner).2.curator.ledger.concludeRebuild s.curator.beginRebuild.1
    ((s.loaded inner).1.map LoadedFile.keyed)

/-- **A batch** reads its files, then commits and tells of the files that changed. -/
theorem handleBatch_eq (events : List FileEvent) :
    s.handleBatch inner events = ((s.batchCommit inner events).1,
      (s.scanned inner events).2.settle (s.batchCommit inner events).1
        (s.batchCommit inner events).2) := rfl

/-- **A rebuild** loads the workspace, then commits and tells of it. -/
theorem rebuild_eq :
    s.rebuild inner = ((s.rebuildCommit inner).1.map List.length,
      (s.loaded inner).2.conclude (s.rebuildCommit inner).1 (s.rebuildCommit inner).2) := by
  have hcases : s.rebuild inner =
      match (s.rebuildCommit inner).1 with
      | none => (none, (s.loaded inner).2.conclude none (s.rebuildCommit inner).2)
      | some files =>
        (some files.length,
          (s.loaded inner).2.conclude (some files) (s.rebuildCommit inner).2) := rfl
  rw [hcases]
  rcases (s.rebuildCommit inner).1 with _ | files <;> rfl

end Session

end TclAtlas
