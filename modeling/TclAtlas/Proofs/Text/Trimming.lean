import TclAtlas.Text.Blank
import Mathlib.Data.List.DropRight

/-!
# Proofs/Text/Trimming — what trimming a text takes off

Blanks are taken off the two ends of a text independently (`trimEnd_trimStart`), and taken off once
they are gone (`trim_trim`).  Of two texts put together, trimming takes blanks off the outer ends,
and reaches into the other text only where one is all blank (`trimStart_append`, `trimEnd_append`).
-/

namespace TclAtlas.Text

theorem trimStart_append (s t : Text) :
    trimStart (s ++ t) = if trimStart s = [] then trimStart t else trimStart s ++ t := by
  unfold trimStart
  rw [List.dropWhile_append]
  by_cases h : s.dropWhile isBlank = [] <;> simp [h]

theorem trimEnd_append (s t : Text) :
    trimEnd (s ++ t) = if trimEnd t = [] then trimEnd s else s ++ trimEnd t := by
  unfold trimEnd
  rw [List.reverse_append, List.dropWhile_append]
  by_cases h : t.reverse.dropWhile isBlank = [] <;> simp [h]

theorem trimStart_cons (c : Char) (t : Text) :
    trimStart (c :: t) = if isBlank c then trimStart t else c :: t := List.dropWhile_cons

theorem trimEnd_cons (c : Char) (t : Text) :
    trimEnd (c :: t) = if trimEnd t = [] then trimEnd [c] else c :: trimEnd t :=
  trimEnd_append [c] t

theorem trimEnd_concat (t : Text) (c : Char) :
    trimEnd (t ++ [c]) = if isBlank c then trimEnd t else t ++ [c] := List.rdropWhile_concat ..

theorem trimEnd_eq_nil_iff {t : Text} : trimEnd t = [] ↔ ∀ c ∈ t, isBlank c = true :=
  List.rdropWhile_eq_nil_iff

@[simp] theorem trimStart_trimStart (t : Text) : trimStart (trimStart t) = trimStart t :=
  List.dropWhile_idempotent isBlank t

@[simp] theorem trimEnd_trimEnd (t : Text) : trimEnd (trimEnd t) = trimEnd t :=
  List.rdropWhile_idempotent isBlank t

/-- **The ends are trimmed independently.** -/
theorem trimEnd_trimStart : ∀ t : Text, trimEnd (trimStart t) = trimStart (trimEnd t)
  | [] => rfl
  | c :: t => by
    have ih := trimEnd_trimStart t
    by_cases hc : isBlank c = true
    · have hsingle : trimEnd [c] = [] := by simp [trimEnd, hc]
      rw [trimStart_cons, if_pos hc, ih, trimEnd_cons, hsingle]
      split
      · next hnil => rw [hnil]
      · rw [trimStart_cons, if_pos hc]
    · have hsingle : trimEnd [c] = [c] := by simp [trimEnd, hc]
      rw [trimStart_cons, if_neg hc, trimEnd_cons, hsingle]
      split <;> rw [trimStart_cons, if_neg hc]

@[simp] theorem trimStart_trim (t : Text) : trimStart (trim t) = trim t := by
  rw [trim, trimEnd_trimStart, trimStart_trimStart]

@[simp] theorem trimEnd_trim (t : Text) : trimEnd (trim t) = trim t := trimEnd_trimEnd _

@[simp] theorem trim_trimStart (t : Text) : trim (trimStart t) = trim t := by
  rw [trim, trimStart_trimStart, trim]

@[simp] theorem trim_trimEnd (t : Text) : trim (trimEnd t) = trim t := by
  rw [trim, ← trimEnd_trimStart, trimEnd_trimEnd, trim]

/-- **Trimming a trimmed text** takes nothing off. -/
@[simp] theorem trim_trim (t : Text) : trim (trim t) = trim t := by
  rw [trim, trimStart_trim, trimEnd_trim]

/-! ## What is left -/

theorem trimStart_sublist (t : Text) : (trimStart t).Sublist t := List.dropWhile_sublist isBlank

theorem trimEnd_sublist (t : Text) : (trimEnd t).Sublist t :=
  List.reverse_sublist.mp ((List.reverse_reverse _).symm ▸ List.dropWhile_sublist isBlank)

/-- **Trimming leaves a part of the text.** -/
theorem trim_sublist (t : Text) : (trim t).Sublist t :=
  (trimEnd_sublist _).trans (trimStart_sublist t)

end TclAtlas.Text
