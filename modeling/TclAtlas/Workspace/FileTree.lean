import TclAtlas.Workspace.Listing

/-!
# Workspace/FileTree — files and directories, and how paths lead to them

A **file tree** is all that is below the root of the file system, together with the working
directory at which relative paths start.  A path is **followed** stretch by stretch to a place: a
symbolic link on the way is replaced by its target, a double dot goes up from where the path has got
to, and the root is above itself.  A path leads to a file or a directory, or fails with a `Fault`.

Writing makes the missing directories above a file, and never turns a directory into a file or a
file into a directory.
-/

namespace TclAtlas

/-! ## Faults -/

/-- **Why a path leads nowhere**, or to nothing that can be read. -/
inductive Fault
  | absent
  /-- What the path leads to is closed to readers. -/
  | denied
  /-- A file is in the place of a directory. -/
  | notDirectory
  | isDirectory
  /-- The path, or a name on the way, is longer than any there is. -/
  | tooLong
  /-- More links are on the way than are followed. -/
  | tooManyLinks
  /-- The path holds the byte that no path may hold. -/
  | holdsNul
  deriving DecidableEq, Repr

namespace Fault

/-- **The fault in words.** -/
def message : Fault → Text
  | absent => "No such file or directory (os error 2)".toList
  | denied => "Permission denied (os error 13)".toList
  | notDirectory => "Not a directory (os error 20)".toList
  | isDirectory => "Is a directory (os error 21)".toList
  | tooLong => "File name too long (os error 36)".toList
  | tooManyLinks => "Too many levels of symbolic links (os error 40)".toList
  | holdsNul => "file name contained an unexpected NUL byte".toList

end Fault

/-! ## Following paths -/

/-- The place where a path starts, from a given directory. -/
def Path.startFrom (p : Path) (here : Place) : Place := if p.isAbsolute then [] else here

/-- The most links that are followed on the way of one path. -/
def maxLinks : Nat := 40

namespace Node

/-- The place that the stretches of a path lead to, from a given place below a root; `jump` goes on
from a link, given the place of its directory, its target and the stretches left.

An empty stretch and a single dot stay where they are, a double dot goes up.  Nothing need be at the
place where the last stretch leads to. -/
def followTo (root : Node) (jump : Place → Path → List Bytes → Except Fault Place) :
    Place → List Bytes → Except Fault Place
  | here, [] => .ok here
  | here, s :: ss =>
    if s = [] ∨ s = [dot] then followTo root jump here ss
    else if s = [dot, dot] then followTo root jump here.dropLast ss
    else if isNameTooLong s then .error .tooLong
    else
      match root.at? (here ++ [s]) with
      | some (.folder _ _) => followTo root jump (here ++ [s]) ss
      | some (.leaf (.link target)) => jump here target ss
      | some (.leaf (.file _ _)) => if ss = [] then .ok (here ++ [s]) else .error .notDirectory
      | none => if ss = [] then .ok (here ++ [s]) else .error .absent

/-- **The place that the stretches of a path lead to**, by way of so many links at most. -/
def follow (root : Node) : (links : Nat) → Place → List Bytes → Except Fault Place
  | 0 => followTo root fun _ _ _ => .error .tooManyLinks
  | links + 1 => followTo root fun here target ss =>
    follow root links (target.startFrom here) (target.stretches ++ ss)

end Node

/-! ## File trees -/

/-- **A file tree**: what is below the root, and the place of the working directory. -/
structure FileTree where
  top : Listing
  workingDir : Place
  wellFormed : top.WellFormed

/-- **What a path leads to**, links being followed. -/
inductive Reached
  | file (content : Bytes) (readable : Bool)
  | folder (listable : Bool) (inside : Listing)
  deriving DecidableEq, Repr

/-- What is at the place that a path leads to. -/
def Node.reached? : Node → Option Reached
  | leaf (.file content readable) => some (.file content readable)
  | leaf (.link _) => none
  | folder listable inside => some (.folder listable inside)

namespace FileTree

/-- The tree without files, seen from its root. -/
def empty : FileTree := ⟨.nil, [], trivial⟩

instance : Inhabited FileTree := ⟨empty⟩

/-- The root. -/
def root (t : FileTree) : Node := .folder true t.top

/-- The place that a path leads to from its first stretches on. -/
def follow (t : FileTree) (p : Path) (ss : List Bytes) : Except Fault Place :=
  t.root.follow maxLinks (p.startFrom t.workingDir) ss

/-- **The place that a path leads to.**  The length of the path is looked at before anything on the
way, the length of a name only in the directory where it is looked up. -/
def place (t : FileTree) (p : Path) : Except Fault Place :=
  if p.holdsNul then .error .holdsNul
  else if p.isTooLong then .error .tooLong
  else if p.spelling = [] then .error .absent
  else t.follow p p.stretches

/-- **What a path leads to.** -/
def find (t : FileTree) (p : Path) : Except Fault Reached :=
  match t.place p with
  | .error fault => .error fault
  | .ok q =>
    match (t.root.at? q).bind Node.reached? with
    | none => .error .absent
    | some a => .ok a

/-! ## Edits -/

/-- The tree with what is at a place set anew, if its names are names that entries can have. -/
def setAt (t : FileTree) (new : Option Node) (hnew : ∀ node ∈ new, node.WellFormed) (p : Place) :
    FileTree :=
  if hp : ∀ n ∈ p, isEntryName n then
    { t with top := t.top.setAt new p, wellFormed := t.wellFormed.setAt hnew hp }
  else t

/-- The tree with a directory made at a place where nothing is. -/
def makeFolderAt (t : FileTree) (p : Place) : FileTree :=
  if (t.root.at? p).isNone then
    t.setAt (some (.folder true .nil)) (by rintro _ ⟨⟩; exact trivial) p
  else t

/-- The tree with a file put at a place, or changed there.  A directory stays. -/
def putFileAt (t : FileTree) (content : Bytes) (p : Place) : FileTree :=
  let file (readable : Bool) : Option Node := some (.leaf (.file content readable))
  match t.root.at? p with
  | none => t.setAt (file true) (by rintro _ ⟨⟩; exact trivial) p
  | some (.leaf (.file _ readable)) => t.setAt (file readable) (by rintro _ ⟨⟩; exact trivial) p
  | some (.leaf (.link _)) | some (.folder _ _) => t

/-- The tree with directories made on the way of a path, from its first stretches on. -/
def makeWay (t : FileTree) (p : Path) : (passed left : List Bytes) → FileTree
  | _, [] => t
  | passed, s :: ss =>
    match t.follow p passed with
    | .error _ => t
    | .ok here =>
      if s = [] ∨ s = [dot] ∨ s = [dot, dot] then makeWay t p (passed ++ [s]) ss
      else makeWay (t.makeFolderAt (here ++ [s])) p (passed ++ [s]) ss

/-- **The tree with a directory made**, with those on the way to it as needed. -/
def makeFolder (t : FileTree) (p : Path) : FileTree :=
  if p.isTooLong then t else t.makeWay p [] p.stretches

/-- **The tree with a file written**, directories on the way to it made as needed. -/
def write (t : FileTree) (p : Path) (content : Bytes) : FileTree :=
  if p.isTooLong then t
  else
    let t := t.makeWay p [] p.stretches.dropLast
    match t.place p with
    | .error _ => t
    | .ok q => t.putFileAt content q

/-- The tree with a text written in UTF-8. -/
def writeText (t : FileTree) (p : Path) (text : Text) : FileTree := t.write p text.utf8

/-- **The tree without the entry at the end of a path**, and without all below it.  A link itself is
taken out, not what it leads to. -/
def remove (t : FileTree) (p : Path) : FileTree :=
  let ss := (p.stretches.reverse.dropWhile fun s => s = [] ∨ s = [dot]).reverse
  match ss.getLast? with
  | none => t
  | some s =>
    match t.follow p ss.dropLast with
    | .error _ => t
    | .ok here => t.setAt none (by simp) (here ++ [s])

end FileTree

end TclAtlas
