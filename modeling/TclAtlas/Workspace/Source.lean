import TclAtlas.Registry
import TclAtlas.Workspace.Selection
import TclAtlas.Workspace.SourceError

/-!
# Workspace/Source — where the files of a workspace come from

A **source** finds the selected files at a search path, and reads files.  What it finds and reads
depends on the state of the files; the source itself does not change.

Loading a workspace skips search paths that cannot be listed and files that cannot be read, and
takes a path found twice once.
-/

namespace TclAtlas

/-- **A source of files**, whose states are of type `σ`. -/
structure FileSource (σ : Type) where
  /-- The selected files at a search path, or that path alone if it is one itself. -/
  collect : σ → Selection → Path → Except SourceError (List Path)
  /-- The text of a file. -/
  read : σ → Path → Except SourceError Text

/-- **A file with its text.** -/
structure LoadedFile where
  path : Path
  text : Text
  deriving DecidableEq, Repr

/-- The text of the file, with what the file is registered under. -/
def LoadedFile.keyed (f : LoadedFile) : FileKey × Text := (f.path.shown, f.text)

/-- The paths of several lists in order, each once whatever its spelling; the first spelling
stays. -/
def Path.merge (ps : List (List Path)) : List Path := ps.flatten.eraseDupsBy Path.same

namespace FileSource

variable {σ : Type} (src : FileSource σ)

/-- The paths of a workspace, in the order of its search paths. -/
def paths (files : σ) (sel : Selection) : List Path :=
  Path.merge (sel.searchPaths.map fun p => (src.collect files sel p).toOption.getD [])

/-- **The files of a workspace with their texts.** -/
def load (files : σ) (sel : Selection) : List LoadedFile :=
  (src.paths files sel).filterMap fun p => (src.read files p).toOption.map (⟨p, ·⟩)

end FileSource

end TclAtlas
