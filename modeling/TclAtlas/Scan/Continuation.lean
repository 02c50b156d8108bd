import TclAtlas.Text.Blank

/-!
# Scan/Continuation — values that go on over several lines

A value whose text ends in an odd number of backslashes goes on in the next line: the last backslash
is dropped and the next line, trimmed, is joined with a single space.  The joined text may end in an
odd number of backslashes again.
-/

namespace TclAtlas.Continuation

/-- **Whether a value goes on** in the next line. -/
def goesOn (value : Text) : Bool := (value.reverse.takeWhile (· == '\\')).length % 2 == 1

/-- The value so far without the backslash that continues it, and without the blanks before that. -/
def dropMark (value : Text) : Text := Text.trimEnd value.dropLast

/-- The value joined with as many of the following lines as it goes on over, and their number. -/
def joinFrom (value : Text) : List Text → Text × Nat
  | [] => (if goesOn value then dropMark value else value, 0)
  | l :: ls =>
    if goesOn value then
      let (joined, n) := joinFrom (dropMark value ++ ' ' :: Text.trim l) ls
      (joined, n + 1)
    else (value, 0)

/-- **A value with the lines it goes on over**, and the number of those lines: `first` is its text
on its own line, `after` the lines below. -/
def join (first : Text) (after : List Text) : Text × Nat := joinFrom (Text.trimEnd first) after

/-- No more lines are joined than there are. -/
theorem joinFrom_le_length : ∀ (ls : List Text) (value : Text), (joinFrom value ls).2 ≤ ls.length
  | [], _ => Nat.le_refl 0
  | l :: ls, value => by
    unfold joinFrom
    split
    · exact Nat.succ_le_succ (joinFrom_le_length ls _)
    · exact Nat.zero_le _

end TclAtlas.Continuation
