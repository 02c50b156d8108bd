import TclAtlas.Proofs.Scan.Appending

/-!
# Proofs/Scan/Values — what a value over several lines is

A value goes on over as many lines as follow a line that goes on (`Continuation.join_snd`).  It is
put together from **pieces**, the text on its own line and the lines it goes on over: each trimmed
and without the backslash that continues it, in a row with single spaces, empty ones left out
(`Continuation.trim_join`).

A value is joined from the left, one piece after the other, with a space before every piece.  So the
space before an empty piece is trimmed off before the next piece, or at the end.
-/

namespace TclAtlas.Continuation

/-! ## Pieces -/

/-- **How many lines** a value in the first of the lines goes on over: as long as a line goes on and
there is a next one. -/
def goesOver : List Text → Nat
  | l :: m :: ls => if goesOn (Text.trimEnd l) then goesOver (m :: ls) + 1 else 0
  | _ => 0

/-- **A piece of a value**, trimmed and without the backslash that continues it. -/
def unmark (piece : Text) : Text :=
  Text.trim (if goesOn (Text.trimEnd piece) then (Text.trimEnd piece).dropLast else piece)

/-- **Texts in a row** with single spaces between them, empty ones left out. -/
def inRow (ts : List Text) : Text := [' '].intercalate (ts.filter (· ≠ []))

/-- **The value that pieces make.** -/
def glue (pieces : List Text) : Text := inRow (pieces.map unmark)

@[simp] theorem inRow_nil : inRow [] = [] := rfl

theorem inRow_cons (t : Text) (ts : List Text) : inRow (t :: ts) =
    if inRow ts = [] then t else if t = [] then inRow ts else t ++ ' ' :: inRow ts := by
  by_cases ht : t = []
  · have hskip : inRow ([] :: ts) = inRow ts := by simp [inRow]
    rw [ht, hskip]
    split
    · next hnil => exact hnil
    · rfl
  · have hrow : inRow (t :: ts) = [' '].intercalate (t :: ts.filter (· ≠ [])) := by
      rw [inRow, List.filter_cons_of_pos (by simpa using ht)]
    have hne : ∀ u ∈ ts.filter (· ≠ []), u ≠ [] := fun u hu =>
      of_decide_eq_true (List.mem_filter.mp hu).2
    rw [hrow, inRow, if_neg ht]
    generalize ts.filter (· ≠ []) = us at hne
    rcases us with _ | ⟨u, us⟩
    · simp
    · have hrest : [' '].intercalate (u :: us) ≠ [] := by
        have hu := hne u List.mem_cons_self
        rcases us with _ | ⟨v, us⟩ <;> simp [hu]
      rw [if_neg hrest, List.intercalate_cons_cons]
      simp

@[simp] theorem inRow_singleton (t : Text) : inRow [t] = t := by simp [inRow_cons]

theorem inRow_pair (s t : Text) :
    inRow [s, t] = if t = [] then s else if s = [] then t else s ++ ' ' :: t := by
  rw [inRow_cons, inRow_singleton]

/-- The first two texts may be put in a row first. -/
theorem inRow_inRow_cons (s t : Text) (us : List Text) :
    inRow (inRow [s, t] :: us) = inRow (s :: t :: us) := by
  rw [inRow_pair, inRow_cons, inRow_cons s, inRow_cons t]
  by_cases hs : s = [] <;> by_cases ht : t = [] <;> by_cases hus : inRow us = [] <;>
    simp [hs, ht, hus]

/-! ## Putting one piece behind another -/

theorem exists_of_goesOn {t : Text} (h : goesOn t = true) : ∃ s, t = s ++ ['\\'] := by
  by_contra hnone
  have hlast : t.getLast? ≠ some '\\' := fun hlast =>
    hnone ⟨t.dropLast, (List.dropLast_append_getLast? _ hlast).symm⟩
  exact absurd (h.symm.trans (goesOn_of_getLast? hlast)) (by decide)

/-- A piece behind a space is trimmed apart from what stands before it. -/
theorem trim_append_space {d x : Text} (hd : Text.trimEnd d = d) (hx : Text.trimStart x = x) :
    Text.trim (d ++ ' ' :: x) = inRow [Text.trim d, Text.trim x] := by
  have hspace : Text.trimEnd [' '] = [] := by decide
  have hblank : Text.isBlank ' ' = true := by decide
  have hx' : Text.trim x = Text.trimEnd x := by rw [Text.trim, hx]
  have hd' : Text.trim d = Text.trimStart d := by rw [Text.trim, Text.trimEnd_trimStart, hd]
  rw [← Text.trim_trimEnd, Text.trimEnd_append, Text.trimEnd_cons, hspace, inRow_pair, hx']
  by_cases hnil : Text.trimEnd x = []
  · simp [hnil, hd]
  · rw [if_neg hnil, if_neg (List.cons_ne_nil _ _), if_neg hnil, Text.trim, Text.trimStart_append,
      Text.trimStart_cons, if_pos hblank, ← hx', Text.trimStart_trim, hd']
    split
    · exact Text.trimEnd_trim x
    · rw [Text.trimEnd_append, Text.trimEnd_cons, Text.trimEnd_trim, hx', if_neg hnil,
        if_neg (List.cons_ne_nil _ _)]

/-- Whether a value goes on is told by its last piece. -/
theorem goesOn_piece (d piece : Text) :
    goesOn (d ++ ' ' :: Text.trim piece) = goesOn (Text.trimEnd piece) := by
  have hspace : d ++ ' ' :: Text.trim piece = (d ++ [' ']) ++ Text.trim piece := by simp
  rw [hspace, goesOn_append (by simp), goesOn_trim]

/-- **A value that goes on**, up to the backslash of its last piece. -/
theorem trim_dropMark {d piece : Text} (hd : Text.trimEnd d = d)
    (hpiece : goesOn (Text.trimEnd piece) = true) :
    Text.trim (dropMark (d ++ ' ' :: Text.trim piece)) = inRow [Text.trim d, unmark piece] := by
  obtain ⟨s, hs⟩ := exists_of_goesOn hpiece
  have htrim : Text.trim piece = Text.trimStart s ++ ['\\'] := by
    have hslash : Text.trimStart ['\\'] = ['\\'] := by decide
    rw [Text.trim, Text.trimEnd_trimStart, hs, Text.trimStart_append, hslash]
    split
    · next hnil => rw [hnil, List.nil_append]
    · rfl
  have hunmark : unmark piece = Text.trim s := by
    rw [unmark, if_pos hpiece, hs, List.dropLast_concat]
  have hdrop : (d ++ ' ' :: Text.trim piece).dropLast = d ++ ' ' :: Text.trimStart s := by
    rw [htrim, ← List.cons_append, ← List.append_assoc, List.dropLast_concat]
  rw [dropMark, Text.trim_trimEnd, hdrop, trim_append_space hd (Text.trimStart_trimStart s),
    Text.trim_trimStart, hunmark]

/-! ## Joining pieces -/

theorem joinFrom_piece_snd : ∀ (ls : List Text) (d piece : Text),
    (joinFrom (d ++ ' ' :: Text.trim piece) ls).2 = goesOver (piece :: ls)
  | [], _, _ => rfl
  | l :: ls, d, piece => by
    rw [joinFrom, goesOn_piece, goesOver]
    split
    · exact congrArg (· + 1) (joinFrom_piece_snd ls _ l)
    · rfl

/-- **Joining from a piece on**: what stands before it, the piece and those that follow are put in a
row. -/
theorem trim_joinFrom_piece : ∀ (ls : List Text) {d : Text} (piece : Text), Text.trimEnd d = d →
    Text.trim (joinFrom (d ++ ' ' :: Text.trim piece) ls).1 =
      inRow (Text.trim d :: unmark piece :: (ls.take (goesOver (piece :: ls))).map unmark) := by
  have hstays : ∀ {d : Text} (piece : Text), Text.trimEnd d = d →
      goesOn (Text.trimEnd piece) ≠ true →
      Text.trim (d ++ ' ' :: Text.trim piece) = inRow [Text.trim d, unmark piece] := by
    intro d piece hd hpiece
    rw [trim_append_space hd (Text.trimStart_trim piece), Text.trim_trim, unmark, if_neg hpiece]
  intro ls
  induction ls with
  | nil =>
    intro d piece hd
    rw [joinFrom, goesOn_piece]
    split
    · next hpiece => exact trim_dropMark hd hpiece
    · next hpiece => exact hstays piece hd hpiece
  | cons l ls ih =>
    intro d piece hd
    rw [joinFrom, goesOn_piece, goesOver]
    split
    · next hpiece =>
      have hdrop := ih (d := dropMark (d ++ ' ' :: Text.trim piece)) l (Text.trimEnd_trimEnd _)
      rw [trim_dropMark hd hpiece, inRow_inRow_cons] at hdrop
      exact hdrop
    · next hpiece => exact hstays piece hd hpiece

/-- **A value goes on over** as many lines as follow one that goes on. -/
theorem join_snd (first : Text) (after : List Text) :
    (join first after).2 = goesOver (first :: after) := by
  rw [join]
  rcases after with _ | ⟨l, ls⟩
  · rfl
  · rw [joinFrom, goesOver]
    split
    · exact congrArg (· + 1) (joinFrom_piece_snd ls _ l)
    · rfl

/-- **The value joined from its pieces.** -/
theorem trim_join (first : Text) (after : List Text) :
    Text.trim (join first after).1 =
      glue (first :: after.take (goesOver (first :: after))) := by
  have hmarked : goesOn (Text.trimEnd first) = true →
      Text.trim (dropMark (Text.trimEnd first)) = unmark first := by
    intro h
    rw [dropMark, Text.trim_trimEnd, unmark, if_pos h]
  have hplain : goesOn (Text.trimEnd first) ≠ true →
      Text.trim (Text.trimEnd first) = unmark first := by
    intro h
    rw [Text.trim_trimEnd, unmark, if_neg h]
  rw [join, glue, List.map_cons]
  rcases after with _ | ⟨l, ls⟩
  · rw [joinFrom]
    split
    · next h => simpa using hmarked h
    · next h => simpa using hplain h
  · rw [joinFrom, goesOver]
    split
    · next h =>
      rw [← hmarked h]
      exact trim_joinFrom_piece ls l (Text.trimEnd_trimEnd _)
    · next h => simpa using hplain h

/-- A piece that is nothing but its backslash is left out. -/
example : glue ["[list \\".toList, "  \\".toList, " a] ".toList] = "[list a]".toList := by
  decide +kernel

/-! ## Which lines are joined -/

/-- **A line is joined** when the one before it goes on, and is joined itself or the first. -/
theorem lt_goesOver_iff : ∀ (ls : List Text) (n : Nat), n < goesOver ls ↔
    n ≤ goesOver ls ∧ n + 1 < ls.length ∧ ∃ l, ls[n]? = some l ∧ goesOn (Text.trimEnd l) = true
  | [], n => by simp [goesOver]
  | [l], n => by simp [goesOver]
  | l :: m :: ls, n => by
    rw [goesOver]
    by_cases hl : goesOn (Text.trimEnd l) = true
    · rcases n with _ | n
      · simp [hl]
      · have ih := lt_goesOver_iff (m :: ls) n
        simpa [hl] using ih
    · rcases n with _ | n <;> simp [hl]

end TclAtlas.Continuation
