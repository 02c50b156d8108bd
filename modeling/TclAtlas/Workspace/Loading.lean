import TclAtlas.Workspace.FileTree
import TclAtlas.Workspace.Source

/-!
# Workspace/Loading — the file system as a source of files

A search path that is a file stands for itself.  A directory is walked: excluded directories below
it are not entered, nor are those that cannot be listed or whose paths get too long, and the files
with a selected extension are listed in the order of paths.  Each path is spelled as the search path
joined with the way down from it.

A walk passes over symbolic links; the search path itself may lead through some, and reading a file
follows all of them.
-/

namespace TclAtlas

/-- **The files below a directory** that are selected, as the walk meets them; `base` is the path of
the directory. -/
def Listing.walk (sel : Selection) (base : Path) : Listing → List Path
  | .nil => []
  | .leaf n (.file _ _) rest =>
    (if sel.hasExtension (base.join n) then [base.join n] else []) ++ walk sel base rest
  | .leaf _ (.link _) rest => walk sel base rest
  | .folder n listable inside rest =>
    (if sel.excludes n || !listable || (base.join n).isTooLong then []
      else walk sel (base.join n) inside) ++ walk sel base rest

namespace FileTree

/-- Why a directory that cannot be listed is not walked. -/
def listingDenied (p : Path) : SourceError :=
  .unwalkable p ("IO error for operation on ".toList ++ p.shown ++ ": ".toList ++
    Fault.denied.message)

/-- **The selected files at a search path**, in the order of paths. -/
def collect (t : FileTree) (sel : Selection) (p : Path) : Except SourceError (List Path) :=
  match t.find p with
  | .ok (.file _ _) => .ok (if sel.hasExtension p then [p] else [])
  | .ok (.folder listable inside) =>
    if listable then .ok ((inside.walk sel p).mergeSort Path.le) else .error (listingDenied p)
  | .error _ => .error (.notDirectory p)

/-- **The text of a file.** -/
def read (t : FileTree) (p : Path) : Except SourceError Text :=
  let unreadable (fault : Fault) := SourceError.unreadable p fault.message
  match t.find p with
  | .error fault => .error (unreadable fault)
  | .ok (.folder listable _) => .error (unreadable (if listable then .isDirectory else .denied))
  | .ok (.file content readable) =>
    if readable then
      match Text.ofUtf8? content with
      | none => .error (.notText p)
      | some text => .ok text
    else .error (unreadable .denied)

/-- **The file system as a source.** -/
def source : FileSource FileTree := ⟨collect, read⟩

@[simp] theorem source_collect (t : FileTree) (sel : Selection) (p : Path) :
    source.collect t sel p = t.collect sel p := rfl

@[simp] theorem source_read (t : FileTree) (p : Path) : source.read t p = t.read p := rfl

/-- The paths of a workspace in the file system. -/
def paths (t : FileTree) (sel : Selection) : List Path := source.paths t sel

end FileTree

end TclAtlas
