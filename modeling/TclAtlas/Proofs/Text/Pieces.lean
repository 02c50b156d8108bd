import TclAtlas.Proofs.Text.Trimming

/-!
# Proofs/Text/Pieces — texts put in a row and cut at their blanks again

A text without blanks is its own only piece, and a blank parts the pieces before it from those after
it.  So **solid** texts, which have characters but no blanks, are the pieces of the row that they
make with single spaces between them (`pieces_intercalate`).  The texts that are such rows are the
**single-spaced** ones; nothing is trimmed off them (`IsSingleSpaced.trim`).
-/

namespace TclAtlas.Text

/-- **A solid text**: it has characters, and none of them is blank. -/
def IsSolid (t : Text) : Prop := t ≠ [] ∧ ∀ c ∈ t, isBlank c = false

instance (t : Text) : Decidable (IsSolid t) :=
  decidable_of_iff (t ≠ [] ∧ t.all (!isBlank ·) = true) (by simp [IsSolid])

theorem isSolid_of_mem_pieces {t p : Text} (h : p ∈ pieces t) : IsSolid p :=
  ⟨ne_nil_of_mem_pieces h, fun _ => isBlank_of_mem_pieces h⟩

/-- **A blank parts the pieces.** -/
theorem pieces_append_cons {c : Char} (hc : isBlank c = true) (s t : Text) :
    pieces (s ++ c :: t) = pieces s ++ pieces t := by
  rw [pieces, List.splitOnP_append_cons s t hc, List.filter_append, pieces, pieces]

theorem pieces_of_isSolid {t : Text} (h : IsSolid t) : pieces t = [t] := by
  rw [pieces, List.splitOnP_eq_singleton h.2]
  simp [h.1]

/-- **Solid texts are the pieces of their row.** -/
theorem pieces_intercalate : ∀ {ps : List Text}, (∀ p ∈ ps, IsSolid p) →
    pieces ([' '].intercalate ps) = ps
  | [], _ => rfl
  | [p], h => by simpa using pieces_of_isSolid (h p List.mem_cons_self)
  | p :: q :: ps, h => by
    obtain ⟨hp, hps⟩ := List.forall_mem_cons.mp h
    rw [List.intercalate_cons_cons, List.append_assoc, List.singleton_append,
      pieces_append_cons (by decide), pieces_of_isSolid hp, pieces_intercalate hps]
    rfl

theorem intercalate_append (sep : Text) {qs : List Text} (hqs : qs ≠ []) : ∀ {ps : List Text},
    ps ≠ [] → sep.intercalate (ps ++ qs) = sep.intercalate ps ++ sep ++ sep.intercalate qs
  | [p], _ => by rw [List.singleton_append, List.intercalate_cons_of_ne_nil hqs,
      List.intercalate_singleton]
  | p :: q :: ps, _ => by
    have ih := intercalate_append sep hqs (List.cons_ne_nil q ps)
    rw [List.cons_append, List.intercalate_cons_of_ne_nil (by simp), ih,
      List.intercalate_cons_cons]
    simp only [List.append_assoc]

/-- **Rows put in a row** are one row. -/
theorem intercalate_flatten (sep : Text) : ∀ {gs : List (List Text)}, (∀ g ∈ gs, g ≠ []) →
    sep.intercalate (gs.map sep.intercalate) = sep.intercalate gs.flatten
  | [], _ => rfl
  | [g], _ => by simp
  | g :: h :: gs, hne => by
    obtain ⟨hg, hgs⟩ := List.forall_mem_cons.mp hne
    have hrest : (h :: gs).flatten ≠ [] := by simp [hgs h List.mem_cons_self]
    rw [List.flatten_cons, intercalate_append sep hrest hg, List.map_cons,
      List.intercalate_cons_of_ne_nil (by simp), intercalate_flatten sep hgs]

/-- A row ends with its last text. -/
theorem intercalate_concat (sep : Text) : ∀ (ps : List Text) (p : Text),
    sep.intercalate (ps ++ [p]) = sep.intercalate (ps ++ [[]]) ++ p
  | [], p => by simp
  | q :: ps, p => by
    rw [intercalate_append sep (by simp) (by simp), intercalate_append sep (by simp) (by simp)]
    simp

/-! ## Single spaces -/

/-- **A single-spaced text**: it is the row of its pieces. -/
def IsSingleSpaced (t : Text) : Prop := [' '].intercalate (pieces t) = t

instance (t : Text) : Decidable (IsSingleSpaced t) := inferInstanceAs (Decidable (_ = _))

theorem isSingleSpaced_intercalate {ps : List Text} (h : ∀ p ∈ ps, IsSolid p) :
    IsSingleSpaced ([' '].intercalate ps) := by
  rw [IsSingleSpaced, pieces_intercalate h]

namespace IsSolid

variable {p : Text} (hp : IsSolid p)

include hp

theorem isSingleSpaced : IsSingleSpaced p := by
  rw [IsSingleSpaced, pieces_of_isSolid hp, List.intercalate_singleton]

theorem trimStart_append (t : Text) : trimStart (p ++ t) = p ++ t := by
  obtain ⟨hne, hchars⟩ := hp
  obtain ⟨c, cs, rfl⟩ := List.exists_cons_of_ne_nil hne
  rw [List.cons_append, trimStart_cons, if_neg (by simp [hchars c List.mem_cons_self])]

theorem trimEnd_append (t : Text) : trimEnd (t ++ p) = t ++ p := by
  obtain ⟨hne, hchars⟩ := hp
  obtain ⟨cs, c, rfl⟩ := (List.eq_nil_or_concat' p).resolve_left hne
  rw [← List.append_assoc, trimEnd_concat, if_neg (by simp [hchars c (by simp)])]

end IsSolid

namespace IsSingleSpaced

variable {t : Text}

/-- A single-spaced text with characters is a row of solid texts with a last one. -/
theorem exists_concat (h : IsSingleSpaced t) (hne : t ≠ []) : ∃ ps p,
    (∀ q ∈ ps ++ [p], IsSolid q) ∧ t = [' '].intercalate (ps ++ [p]) := by
  rcases List.eq_nil_or_concat' (pieces t) with hnil | ⟨ps, p, hps⟩
  · rw [IsSingleSpaced, hnil] at h
    exact absurd h.symm hne
  · exact ⟨ps, p, fun q hq => isSolid_of_mem_pieces (hps ▸ hq), by rw [← hps, h]⟩

/-- **A solid text may be put before**, with a space between. -/
theorem cons (h : IsSingleSpaced t) (hne : t ≠ []) {p : Text} (hp : IsSolid p) :
    IsSingleSpaced (p ++ ' ' :: t) := by
  obtain ⟨ps, q, hsolid, rfl⟩ := h.exists_concat hne
  have hrow := isSingleSpaced_intercalate (List.forall_mem_cons.mpr ⟨hp, hsolid⟩)
  rwa [List.intercalate_cons_of_ne_nil (by simp), List.append_assoc] at hrow

/-- **A solid text may be put at the end**, without a space between. -/
theorem append (h : IsSingleSpaced t) (hne : t ≠ []) {p : Text} (hp : IsSolid p) :
    IsSingleSpaced (t ++ p) := by
  obtain ⟨ps, q, hsolid, rfl⟩ := h.exists_concat hne
  have hlast : IsSolid (q ++ p) :=
    ⟨by simp [hp.1], fun c hc => (List.mem_append.mp hc).elim ((hsolid q (by simp)).2 c) (hp.2 c)⟩
  rw [intercalate_concat, List.append_assoc, ← intercalate_concat]
  refine isSingleSpaced_intercalate fun r hr => ?_
  rcases List.mem_append.mp hr with hr | hr
  · exact hsolid r (List.mem_append_left _ hr)
  · exact List.mem_singleton.mp hr ▸ hlast

/-- **Nothing is trimmed off a single-spaced text.** -/
theorem trim (h : IsSingleSpaced t) : Text.trim t = t := by
  by_cases hne : t = []
  · subst hne; rfl
  obtain ⟨ps, q, hsolid, rfl⟩ := h.exists_concat hne
  have hend : trimEnd ([' '].intercalate (ps ++ [q])) = [' '].intercalate (ps ++ [q]) := by
    rw [intercalate_concat, (hsolid q (by simp)).trimEnd_append]
  rw [Text.trim, trimEnd_trimStart, hend]
  rcases ps with _ | ⟨p, ps⟩
  · simpa using (hsolid q (by simp)).trimStart_append []
  · rw [List.cons_append, List.intercalate_cons_of_ne_nil (by simp), List.append_assoc,
      (hsolid p (by simp)).trimStart_append]

end IsSingleSpaced

end TclAtlas.Text
