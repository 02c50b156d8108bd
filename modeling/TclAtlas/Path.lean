import TclAtlas.Text.Encoding

/-!
# Path — paths, their components and their order

A path is kept as it is **spelled**, in bytes, and understood through its **components**: repeated
and trailing slashes and inner single dots make no difference, a leading single dot and every double
dot do.  Two spellings with the same components are the same path (`Path.same`); paths are ordered
component by component.

The names of files and directories, and the paths by which they are reached, are limited in length.
-/

namespace TclAtlas

/-- **A path**, as it is spelled. -/
structure Path where
  spelling : Bytes
  deriving DecidableEq, Repr

/-! ## Bytes with a meaning in paths -/

/-- The byte between the stretches of a path. -/
def slash : UInt8 := 0x2F

/-- The byte that stands for a directory itself, and before an extension. -/
def dot : UInt8 := 0x2E

/-- The byte that neither names nor paths may hold. -/
def nul : UInt8 := 0

/-- **A component of a path.** -/
inductive Component
  /-- The slash at the start of an absolute path. -/
  | root
  /-- The single dot at the start of a relative path. -/
  | here
  /-- A double dot. -/
  | above
  | normal (name : Bytes)
  deriving DecidableEq, Repr

/-! ## Names of files and directories -/

/-- The most bytes that a name takes. -/
def maxNameBytes : Nat := 255

/-- Whether a name is longer than any that a directory can hold. -/
def isNameTooLong (n : Bytes) : Bool := maxNameBytes < n.length

/-- **Whether a directory can hold an entry of the given name.** -/
def isEntryName (n : Bytes) : Bool :=
  n != [] && n != [dot] && n != [dot, dot] && !n.contains slash && !n.contains nul &&
    !isNameTooLong n

/-! ## Components -/

namespace Component

/-- The numbers that order components, the weightiest first: names come last, in their own order. -/
def key : Component → List Nat
  | root => [0]
  | here => [1]
  | above => [2]
  | normal n => 3 :: n.map UInt8.toNat

/-- The name, if the component is one. -/
def name? : Component → Option Bytes
  | normal n => some n
  | _ => none

/-- The component that a stretch between slashes stands for, unless it is the first one. -/
def ofInner? (s : Bytes) : Option Component :=
  if s = [] ∨ s = [dot] then none
  else if s = [dot, dot] then some above
  else some (normal s)

/-- The component that the first stretch of a path stands for; `more` tells whether a slash
follows. -/
def ofFirst? (more : Bool) (s : Bytes) : Option Component :=
  if s = [] then if more then some root else none
  else if s = [dot] then some here
  else ofInner? s

end Component

namespace Path

/-- The stretches of the spelling between its slashes. -/
def stretches (p : Path) : List Bytes := p.spelling.splitOnP (· == slash)

/-- **The components of a path.** -/
def components (p : Path) : List Component :=
  match p.stretches with
  | [] => []
  | s :: ss => (Component.ofFirst? (!ss.isEmpty) s).toList ++ ss.filterMap Component.ofInner?

/-- Whether two spellings are of the same path. -/
def same (p q : Path) : Bool := p.components == q.components

/-- The numbers that order paths, component by component. -/
def key (p : Path) : List (List Nat) := p.components.map Component.key

/-- Whether a path comes before another or is the same. -/
def le (p q : Path) : Bool := !decide (q.key < p.key)

/-- What is left of a list when it starts with another. -/
def after? [DecidableEq α] : List α → List α → Option (List α)
  | [], l => some l
  | _ :: _, [] => none
  | a :: as, b :: bs => if a = b then after? as bs else none

/-- **The components below a path**, if this path is it or below it. -/
def below? (p base : Path) : Option (List Component) := after? base.components p.components

/-! ## Limits -/

/-- The most bytes that a path takes. -/
def maxBytes : Nat := 4095

/-- Whether a path is longer than any by which something is reached. -/
def isTooLong (p : Path) : Bool := maxBytes < p.spelling.length

/-- Whether a path holds the byte that no path may hold. -/
def holdsNul (p : Path) : Bool := p.spelling.contains nul

/-- Whether a path starts from the root of all directories. -/
def isAbsolute (p : Path) : Bool := p.spelling.head? == some slash

/-! ## File names -/

/-- The last component, if it is a name. -/
def fileName? (p : Path) : Option Bytes := p.components.getLast?.bind Component.name?

/-- The part of a file name after its last dot.  A name without a dot, or whose only dot comes
first, has none. -/
def extensionOf? (name : Bytes) : Option Bytes :=
  let ext := (name.reverse.takeWhile (· != dot)).reverse
  if ext.length + 1 < name.length then some ext else none

/-- **The extension** of the file name. -/
def extension? (p : Path) : Option Bytes := p.fileName?.bind extensionOf?

/-- The path of an entry of a directory. -/
def join (p : Path) (name : Bytes) : Path :=
  match p.spelling.getLast? with
  | none => ⟨name⟩
  | some b => if b = slash then ⟨p.spelling ++ name⟩ else ⟨p.spelling ++ slash :: name⟩

/-! ## Paths as texts -/

/-- The path spelled by a text. -/
def ofText (t : Text) : Path := ⟨t.utf8⟩

/-- **A path shown as a text.**  Files are known by their paths so shown, and paths that are no
texts may be shown alike. -/
def shown (p : Path) : Text := p.spelling.shown

/-- **A path that is a text** is shown as it is spelled. -/
@[simp] theorem shown_ofText (t : Text) : (ofText t).shown = t := Bytes.shown_utf8 t

end Path

end TclAtlas
