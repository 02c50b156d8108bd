import TclAtlas.Path

/-!
# Workspace/Selection — which files make up the workspace

A workspace is searched for at some **roots** and **extra paths**.  In it count the files with one
of the selected extensions, compared without regard to the case of ASCII letters, that lie in no
excluded directory.  Excluded directories count below the search path only, so a search path may
itself lie in one.  Names and extensions that are no texts are not among those selected or excluded.
-/

namespace TclAtlas

/-- **The selection** of the files of a workspace. -/
structure Selection where
  roots : List Path
  /-- Libraries outside the roots. -/
  extraPaths : List Path
  /-- Without the dot. -/
  extensions : List Text
  excludedDirs : List Text
  deriving DecidableEq, Repr

namespace Selection

/-- The extensions of scripts. -/
def scriptExtensions : List Text := [['t', 'c', 'l']]

/-- The directories that hold no sources of a project. -/
def nonSourceDirs : List Text :=
  [['.', 'g', 'i', 't'], ['n', 'o', 'd', 'e', '_', 'm', 'o', 'd', 'u', 'l', 'e', 's'],
   ['t', 'a', 'r', 'g', 'e', 't']]

/-- The selection without any search path. -/
def nowhere : Selection := ⟨[], [], scriptExtensions, nonSourceDirs⟩

instance : Inhabited Selection := ⟨nowhere⟩

/-- The selection with one more root. -/
def addRoot (s : Selection) (p : Path) : Selection := { s with roots := s.roots ++ [p] }

/-- The selection with one more path to search after the roots. -/
def addExtraPath (s : Selection) (p : Path) : Selection :=
  { s with extraPaths := s.extraPaths ++ [p] }

/-- The selection with other extensions, which may be given with dots in front. -/
def setExtensions (s : Selection) (es : List Text) : Selection :=
  { s with extensions := es.map (List.dropWhile (· == '.')) }

/-- The selection with one more excluded directory. -/
def excludeDir (s : Selection) (name : Text) : Selection :=
  { s with excludedDirs := s.excludedDirs ++ [name] }

/-- **The paths that are searched**, in order. -/
def searchPaths (s : Selection) : List Path := s.roots ++ s.extraPaths

/-- Whether two extensions are the same but for the case of ASCII letters. -/
def sameExtension (e f : Text) : Bool := e.map Char.toLower == f.map Char.toLower

/-- Whether a path has a selected extension. -/
def hasExtension (s : Selection) (p : Path) : Bool :=
  match p.extension?.bind Text.ofUtf8? with
  | none => false
  | some e => s.extensions.any (sameExtension e)

/-- Whether directories of the given name are excluded. -/
def excludes (s : Selection) (name : Bytes) : Bool :=
  (Text.ofUtf8? name).any s.excludedDirs.contains

/-- The components of a path below the first search path that it lies in; all of them if it lies in
none. -/
def relative (s : Selection) (p : Path) : List Component :=
  (s.searchPaths.findSome? p.below?).getD p.components

/-- **Whether a change of the file at a path concerns the workspace.** -/
def accepts (s : Selection) (p : Path) : Bool :=
  s.hasExtension p && !((s.relative p).filterMap Component.name?).any s.excludes

end Selection

end TclAtlas
