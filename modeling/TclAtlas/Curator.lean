import TclAtlas.Emitter
import TclAtlas.Ledger
import TclAtlas.Workspace.Source

/-!
# Curator — file events in, catalog updates and notices out

A curator keeps the catalog of a workspace in step with its files.  It works in phases, between
which files are read and other calls may come in.  A batch of events is first **received**: events
of files outside the workspace are dropped, each other one gets a ticket.  Once the files are read
and scanned, all tickets are committed together.  A rebuild takes a ticket, loads the workspace, and
commits.
-/

namespace TclAtlas

/-- **A change of a file**, as reported by whoever watches it. -/
inductive FileEvent
  | created (path : Path)
  | changed (path : Path)
  | deleted (path : Path)
  deriving DecidableEq, Repr

/-- The path of the file that changed. -/
def FileEvent.path : FileEvent → Path
  | created p | changed p | deleted p => p

/-- **An accepted event** with its ticket. -/
structure Pending where
  ticket : UpdateTicket
  event : FileEvent
  deriving DecidableEq, Repr

/-- **A curator**: the ledger, the selection of files and the listeners. -/
structure Curator where
  ledger : Ledger
  selection : Selection
  listeners : Emitter Unit

namespace Ledger

/-- The file of an event.  A file that was never registered cannot be deleted. -/
def fileOf (l : Ledger) : FileEvent → Option (FileId × Ledger)
  | .deleted p => (l.registry.get? p.shown).map (·, l)
  | .created p | .changed p => some (l.register p.shown)

/-- Tickets for the files of events, in order. -/
def issueAll (l : Ledger) : List FileEvent → List Pending × Ledger
  | [] => ([], l)
  | e :: es =>
    match l.fileOf e with
    | none => l.issueAll es
    | some (file, l) =>
      let (t, l) := l.issue file
      let (later, l) := l.issueAll es
      (⟨t, e⟩ :: later, l)

/-- **Replace the catalog by that of a workspace**, and tell how many files were loaded. -/
def loadWorkspace {σ : Type} (l : Ledger) (src : FileSource σ) (files : σ) (sel : Selection) :
    Nat × Ledger :=
  let loaded := src.load files sel
  (loaded.length, l.rebuild (loaded.map LoadedFile.keyed))

end Ledger

namespace Curator

/-- The curator of an empty catalog. -/
def start (order : Arrangement) (sel : Selection) : Curator := ⟨.fresh order, sel, .silent⟩

/-- **Receive a batch of events.** -/
def receive (c : Curator) (events : List FileEvent) : List Pending × Curator :=
  let (pending, l) := c.ledger.issueAll (events.filter fun e => c.selection.accepts e.path)
  (pending, { c with ledger := l })

/-- **Commit a batch**: the new outlines of its files, or `none` for those that are gone.  Answers
the files that changed. -/
def commit (c : Curator) (updates : List (UpdateTicket × Option Outline)) :
    List FileId × Curator :=
  let (files, l) := c.ledger.commitAll updates
  (files, { c with ledger := l })

/-- **Begin a rebuild.** -/
def beginRebuild (c : Curator) : RebuildTicket × Curator :=
  let (t, l) := c.ledger.beginRebuild
  (t, { c with ledger := l })

/-- **Commit a rebuild** with the files loaded for it.  Answers the files, or `none` when another
rebuild has begun since. -/
def concludeRebuild (c : Curator) (t : RebuildTicket) (loaded : List LoadedFile) :
    Option (List FileId) × Curator :=
  let (files, l) := c.ledger.concludeRebuild t (loaded.map LoadedFile.keyed)
  (files, { c with ledger := l })

/-- Subscribe a listener. -/
def subscribe (c : Curator) : SubscriptionId × Curator :=
  let (id, e) := c.listeners.subscribe ()
  (id, { c with listeners := e })

/-- Unsubscribe a listener, and tell whether there was one. -/
def unsubscribe (c : Curator) (id : SubscriptionId) : Bool × Curator :=
  let (found, e) := c.listeners.unsubscribe id
  (found, { c with listeners := e })

end Curator

end TclAtlas
