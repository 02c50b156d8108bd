/-!
# Location — files by number, places in them by line and column

Files are known by a number; lines and columns count from zero, columns in bytes.  Locations are
ordered by file, then line, then column, and displayed counting from one.
-/

namespace TclAtlas

/-- **The number of a file.** -/
structure FileId where
  number : Nat
  deriving DecidableEq, Repr

/-- **A place in a file**: line and byte column, both from zero. -/
structure Location where
  file : FileId
  line : Nat
  column : Nat
  deriving DecidableEq, Repr

namespace Location

/-- The numbers that order locations, the weightiest first. -/
def key (l : Location) : List Nat := [l.file.number, l.line, l.column]

/-- Whether a location comes before another or is the same. -/
def le (l m : Location) : Bool := !decide (m.key < l.key)

/-- The locations in order. -/
def sort (ls : List Location) : List Location := ls.mergeSort le

/-- A location as shown to a reader: line and column count from one. -/
def display (l : Location) : String :=
  "file#" ++ toString l.file.number ++ ":" ++ toString (l.line + 1) ++ ":" ++
    toString (l.column + 1)

end Location

end TclAtlas
