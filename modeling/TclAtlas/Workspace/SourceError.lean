import TclAtlas.Path

/-!
# Workspace/SourceError — what can go wrong with the files of a workspace

None of these failures stops the work on a catalog: a file that cannot be read contributes nothing.
-/

namespace TclAtlas

/-- **A failure** to list or read the files of a workspace. -/
inductive SourceError
  /-- A file could not be read, for the given reason. -/
  | unreadable (path : Path) (reason : Text)
  /-- The bytes of a file are no text. -/
  | notText (path : Path)
  /-- A search path is neither a file nor a directory. -/
  | notDirectory (path : Path)
  /-- A directory could not be walked, for the given reason. -/
  | unwalkable (path : Path) (reason : Text)
  deriving DecidableEq, Repr

namespace SourceError

/-- The path that the failure is about. -/
def path : SourceError → Path
  | unreadable p _ | notText p | notDirectory p | unwalkable p _ => p

/-- **The failure in words.** -/
def message : SourceError → Text
  | unreadable p reason =>
    "failed to read ".toList ++ p.shown ++ ": ".toList ++ reason
  | notText p => p.shown ++ " is not valid UTF-8".toList
  | notDirectory p => "not a directory: ".toList ++ p.shown
  | unwalkable p reason => "failed to walk ".toList ++ p.shown ++ ": ".toList ++ reason

end SourceError

end TclAtlas
