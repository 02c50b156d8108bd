import TclAtlas.Catalog
import TclAtlas.Registry

/-!
# Ledger — a catalog kept by tickets

Reading and scanning a file takes time, and in the meantime a newer version of the file may come in.
So an update is announced first: the ledger issues a **ticket** with a stamp, and the later stamp
wins whatever the order in which tickets are committed.  A rebuild takes a ticket too.  It is void
once another rebuild has begun, and spares the files committed with a later stamp than its own.
-/

namespace TclAtlas

/-- **Leave to commit one file**, as of when it was issued. -/
structure UpdateTicket where
  file : FileId
  stamp : Nat
  deriving DecidableEq, Repr

/-- **Leave to replace the whole catalog**, as of when the rebuild began. -/
structure RebuildTicket where
  /-- How many rebuilds had begun by then, this one included. -/
  generation : Nat
  started : Nat
  deriving DecidableEq, Repr

/-- **An order to go through a record of commits.**  The record has none of its own: its entries
come in some order or other, each of them once. -/
structure Arrangement where
  arrange : List (FileId × Nat) → List (FileId × Nat)
  perm : ∀ es, (arrange es).Perm es

/-- The order in which the files were first committed. -/
def Arrangement.asCommitted : Arrangement := ⟨id, fun es => .refl es⟩

instance : Inhabited Arrangement := ⟨.asCommitted⟩

/-- **A catalog with its registry and its record of commits.** -/
structure Ledger where
  catalog : Catalog
  registry : Registry
  /-- The stamp of the last commit of each file. -/
  committed : OrderedMap FileId Nat
  arrangement : Arrangement
  nextStamp : Nat
  /-- How many rebuilds have begun. -/
  generation : Nat

namespace Ledger

/-- The ledger before any commit. -/
def fresh (order : Arrangement) : Ledger := ⟨.empty, .empty, .empty, order, 1, 0⟩

instance : Inhabited Ledger := ⟨fresh default⟩

/-- The number of a path, a new one if need be. -/
def register (l : Ledger) (p : FileKey) : FileId × Ledger :=
  let (file, r) := l.registry.register p
  (file, { l with registry := r })

/-! ## Updates of one file -/

/-- **Issue a ticket** for a file. -/
def issue (l : Ledger) (file : FileId) : UpdateTicket × Ledger :=
  (⟨file, l.nextStamp⟩, { l with nextStamp := l.nextStamp + 1 })

/-- Whether a commit with a later stamp has been made for the ticket's file. -/
def isStale (l : Ledger) (t : UpdateTicket) : Bool :=
  match l.committed.get? t.file with
  | none => false
  | some stamp => t.stamp < stamp

/-- **Commit a file**: its new outline, or `none` to take it out.  Tells whether that was done; it
is not when the ticket is stale, or when there was nothing to take out. -/
def commit (l : Ledger) (t : UpdateTicket) (o : Option Outline) : Bool × Ledger :=
  if l.isStale t then (false, l)
  else
    let committed := l.committed.insert t.file t.stamp
    match o with
    | some o => (true, { l with catalog := l.catalog.apply t.file o, committed })
    | none =>
      (l.catalog.contains t.file, { l with catalog := l.catalog.remove t.file, committed })

theorem isStale_iff (l : Ledger) (t : UpdateTicket) :
    l.isStale t = true ↔ ∃ stamp, l.committed.get? t.file = some stamp ∧ t.stamp < stamp := by
  rw [isStale]
  rcases l.committed.get? t.file with _ | stamp <;> simp

/-- **A stale ticket changes nothing.** -/
theorem commit_of_stale {l : Ledger} {t : UpdateTicket} (h : l.isStale t = true)
    (o : Option Outline) : l.commit t o = (false, l) := if_pos h

/-- **A ticket that is not stale is heeded.** -/
theorem commit_of_not_stale {l : Ledger} {t : UpdateTicket} (h : l.isStale t = false)
    (o : Option Outline) :
    l.commit t o =
      (o.isSome || l.catalog.contains t.file,
        { l with
          catalog := o.elim (l.catalog.remove t.file) (l.catalog.apply t.file)
          committed := l.committed.insert t.file t.stamp }) := by
  rw [commit, if_neg (by simp [h])]
  rcases o with _ | o <;> rfl

/-- Commits in order, and the files of those that were done. -/
def commitAll (l : Ledger) : List (UpdateTicket × Option Outline) → List FileId × Ledger
  | [] => ([], l)
  | (t, o) :: us =>
    let (done, l) := l.commit t o
    let (files, l) := l.commitAll us
    (if done then t.file :: files else files, l)

/-! ## Rebuilds -/

/-- **Begin a rebuild**, which voids those begun before. -/
def beginRebuild (l : Ledger) : RebuildTicket × Ledger :=
  (⟨l.generation + 1, l.nextStamp⟩,
    { l with generation := l.generation + 1, nextStamp := l.nextStamp + 1 })

/-- The files committed with a later stamp than a rebuild's. -/
def newerThan (l : Ledger) (t : RebuildTicket) : List FileId :=
  (l.arrangement.arrange l.committed.entries).filterMap fun (file, stamp) =>
    if t.started < stamp then some file else none

theorem mem_newerThan_iff (l : Ledger) (t : RebuildTicket) (file : FileId) :
    file ∈ l.newerThan t ↔ ∃ stamp, l.committed.get? file = some stamp ∧ t.started < stamp := by
  simp only [newerThan, List.mem_filterMap, (l.arrangement.perm _).mem_iff, Prod.exists,
    OrderedMap.get?_eq_some_iff]
  constructor
  · rintro ⟨f, stamp, hmem, hf⟩
    split at hf
    · next hlt => exact ⟨stamp, Option.some.inj hf ▸ hmem, hlt⟩
    · exact absurd hf (by simp)
  · rintro ⟨stamp, hmem, hlt⟩
    exact ⟨file, stamp, hmem, if_pos hlt⟩

/-- **Commit a rebuild**: the catalog becomes that of the given outlines, except that the files with
newer commits stay as they are.  The files listed or dropped are stamped with the start of the
rebuild.  Does nothing when another rebuild has begun since. -/
def commitRebuild (l : Ledger) (t : RebuildTicket) (os : List (FileId × Outline)) :
    Bool × Ledger :=
  if t.generation ≠ l.generation then (false, l)
  else
    let newer := l.newerThan t
    let kept := newer.filterMap fun file => (l.catalog.outline? file).map (file, ·)
    let listed := os.filter fun (file, _) => file ∉ newer
    let dropped := l.catalog.files.filter (· ∉ newer)
    let committed := (listed.map Prod.fst ++ dropped).foldl
      (fun m file => m.insert file t.started) l.committed
    (true, { l with catalog := .ofOutlines (listed ++ kept), committed })

/-- Register the given files in order, scan their texts and commit the rebuild with them.  Answers
the numbers of the files when the commit was done. -/
def concludeRebuild (l : Ledger) (t : RebuildTicket) (files : List (FileKey × Text)) :
    Option (List FileId) × Ledger :=
  let (ids, r) := l.registry.registerAll (files.map Prod.fst)
  let os := (ids.zip files).map fun (file, _, text) => (file, scanText file text)
  let (done, l) := { l with registry := r }.commitRebuild t os
  (if done then some ids else none, l)

/-! ## Direct updates -/

/-- **Set the text of the file at a path.** -/
def setText (l : Ledger) (p : FileKey) (text : Text) : FileId × Ledger :=
  let (file, l) := l.register p
  let (t, l) := l.issue file
  (file, (l.commit t (some (scanText file text))).2)

/-- **Take out the file at a path**, and tell whether it was there. -/
def removePath (l : Ledger) (p : FileKey) : Bool × Ledger :=
  match l.registry.get? p with
  | none => (false, l)
  | some file =>
    let (t, l) := l.issue file
    l.commit t none

/-- **Replace the catalog** by that of the given files. -/
def rebuild (l : Ledger) (files : List (FileKey × Text)) : Ledger :=
  let (t, l) := l.beginRebuild
  (l.concludeRebuild t files).2

end Ledger

end TclAtlas
