import TclAtlas.Proofs.Text.Trimming
import TclAtlas.Scan.Continuation

/-!
# Proofs/Text/Backslashes — the backslashes at the end of a text

Whether a text ends in an odd number of backslashes (`Continuation.goesOn`) is told by its end
alone.  What stands before a character that is no backslash does not matter (`goesOn_append`), nor
does an escape at the start (`goesOn_escape`), nor blanks there (`goesOn_trimStart`).
-/

namespace TclAtlas.Continuation

/-- **The trailing backslashes of a text** do not reach into what stands before it, unless that
ends in a backslash too. -/
theorem goesOn_append {s : Text} (hs : s.getLast? ≠ some '\\') (t : Text) :
    goesOn (s ++ t) = goesOn t := by
  have hnone : s.reverse.takeWhile (· == '\\') = [] := by
    rw [← List.head?_reverse] at hs
    rcases hr : s.reverse with _ | ⟨c, cs⟩
    · rfl
    · refine List.takeWhile_cons_of_neg ?_
      simpa [hr] using hs
  unfold goesOn
  rw [List.reverse_append, List.takeWhile_append, hnone]
  split
  · next h => simp [h]
  · rfl

theorem goesOn_of_getLast? {t : Text} (ht : t.getLast? ≠ some '\\') : goesOn t = false := by
  rw [← List.append_nil t, goesOn_append ht]
  rfl

/-- A text that goes on makes every text go on whose end it is. -/
theorem goesOn_trimEnd_of_append {s t : Text} (hs : s.getLast? ≠ some '\\')
    (h : goesOn (Text.trimEnd (s ++ t)) = false) : goesOn (Text.trimEnd t) = false := by
  rw [Text.trimEnd_append] at h
  split at h
  · next ht => rw [ht]; rfl
  · rwa [goesOn_append hs] at h

/-- Blanks at the start of a text do not change whether it goes on. -/
theorem goesOn_trimStart (t : Text) : goesOn (Text.trimStart t) = goesOn t := by
  have hblank : (t.takeWhile Text.isBlank).getLast? ≠ some '\\' := by
    intro hlast
    have hc := List.all_eq_true.mp List.all_takeWhile '\\' (List.mem_of_getLast? hlast)
    exact absurd hc (by decide)
  rw [Text.trimStart, ← goesOn_append hblank, List.takeWhile_append_dropWhile]

/-- **A line goes on** when it does so trimmed at its start too. -/
theorem goesOn_trim (l : Text) : goesOn (Text.trim l) = goesOn (Text.trimEnd l) := by
  rw [Text.trim, Text.trimEnd_trimStart, goesOn_trimStart]

/-- An escape in front of a text does not change whether the text goes on. -/
theorem goesOn_escape (d : Char) (t : Text) : goesOn ('\\' :: d :: t) = goesOn t := by
  by_cases hd : d = '\\'
  · subst hd
    unfold goesOn
    rw [List.reverse_cons, List.reverse_cons, List.append_assoc, List.takeWhile_append]
    split
    · next hall => simp [← hall]
    · rfl
  · exact goesOn_append (s := ['\\', d]) (by simpa using hd) t

end TclAtlas.Continuation
