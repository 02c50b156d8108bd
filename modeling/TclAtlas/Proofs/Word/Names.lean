import TclAtlas.Text.Blank
import TclAtlas.Token
import TclAtlas.Word.Form

/-!
# Proofs/Word/Names — the characters of names

A character of a name is ordinary: it is no delimiter (`ofChar_of_isNameChar`) and no blank
(`isBlank_of_isNameChar`).  Nor is a character of a possibly qualified name white space, a blank or
a backslash.  An identifier is made of such characters and has no wrapping to be taken off
(`identifier?_of_isIdentifier`).
-/

namespace TclAtlas.Text

theorem ne_of_isNameChar {c d : Char} (hc : isNameChar c = true) (hd : isNameChar d = false) :
    c ≠ d := by
  rintro rfl
  exact absurd hc (by simp [hd])

theorem ofChar_of_isNameChar {c : Char} (hc : isNameChar c = true) :
    LexemeKind.ofChar c = .text := by
  have hnone : [' ', '\t', '\r', '\n', '\\', '"', '{', '}', '[', ']'].all
      (!isNameChar ·) = true := by decide
  have hne : ∀ d ∈ [' ', '\t', '\r', '\n', '\\', '"', '{', '}', '[', ']'], c ≠ d := by
    intro d hd
    exact ne_of_isNameChar hc (by simpa using List.all_eq_true.mp hnone d hd)
  simp only [List.forall_mem_cons] at hne
  simp [LexemeKind.ofChar, hne]

/-- The code points of a character of a name. -/
theorem toNat_of_isNameChar {c : Char} (hc : isNameChar c = true) :
    (48 ≤ c.toNat ∧ c.toNat ≤ 57) ∨ (65 ≤ c.toNat ∧ c.toNat ≤ 90) ∨
      (97 ≤ c.toNat ∧ c.toNat ≤ 122) ∨ c.toNat = 95 := by
  have hor : (((c.isUpper || c.isLower) || c.isDigit) || c == '_') = true := hc
  have hupper : c.isUpper = true → 65 ≤ c.toNat ∧ c.toNat ≤ 90 := fun h => of_decide_eq_true h
  have hlower : c.isLower = true → 97 ≤ c.toNat ∧ c.toNat ≤ 122 := fun h =>
    (Bool.and_eq_true_iff.mp h).imp of_decide_eq_true of_decide_eq_true
  have hdigit : c.isDigit = true → 48 ≤ c.toNat ∧ c.toNat ≤ 57 := fun h =>
    (Bool.and_eq_true_iff.mp h).imp of_decide_eq_true of_decide_eq_true
  simp only [Bool.or_eq_true, beq_iff_eq] at hor
  rcases hor with ((h | h) | h) | rfl
  · exact Or.inr (Or.inl (hupper h))
  · exact Or.inr (Or.inr (Or.inl (hlower h)))
  · exact Or.inl (hdigit h)
  · exact Or.inr (Or.inr (Or.inr rfl))

theorem isBlank_of_isNameChar {c : Char} (hc : isNameChar c = true) : isBlank c = false := by
  have hcode := toNat_of_isNameChar hc
  simp [isBlank]
  omega

theorem isSymbolName_of {t : Text} (hne : t ≠ []) (ht : ∀ c ∈ t, isSymbolChar c = true) :
    isSymbolName t = true := by
  rw [isSymbolName, List.all_eq_true.mpr ht]
  simp [hne]

theorem isBlank_of_whitespace {c : Char} (h : LexemeKind.ofChar c = .whitespace) :
    isBlank c = true := by
  unfold LexemeKind.ofChar at h
  split at h
  · next hc => rcases hc with rfl | rfl | rfl | rfl <;> decide
  · repeat' split at h
    all_goals exact absurd h (by decide)

theorem isBlank_of_isSymbolChar {c : Char} (hc : isSymbolChar c = true) : isBlank c = false := by
  simp only [isSymbolChar, Bool.or_eq_true, beq_iff_eq] at hc
  rcases hc with (hc | rfl) | rfl
  · exact isBlank_of_isNameChar hc
  · decide
  · decide

theorem isSymbolChar_of_whitespace {c : Char} (h : LexemeKind.ofChar c = .whitespace) :
    isSymbolChar c = false := by
  refine Bool.eq_false_iff.mpr fun hc => ?_
  exact absurd ((isBlank_of_whitespace h).symm.trans (isBlank_of_isSymbolChar hc)) (by decide)

/-- **A name ends in a character of a name.** -/
theorem exists_of_isSymbolName {t : Text} (h : isSymbolName t = true) :
    ∃ s c, t = s ++ [c] ∧ isSymbolChar c = true := by
  simp only [isSymbolName, Bool.and_eq_true, Bool.not_eq_true', List.isEmpty_eq_false_iff,
    List.all_eq_true] at h
  obtain ⟨hne, hall⟩ := h
  exact ⟨t.dropLast, t.getLast hne, (List.dropLast_concat_getLast hne).symm,
    hall _ (List.getLast_mem hne)⟩

/-! ## Identifiers -/

theorem isNameChar_of_isNameStart {c : Char} (hc : isNameStart c = true) :
    isNameChar c = true := by
  simp only [isNameStart, isNameChar, Char.isAlphanum, Bool.or_eq_true] at hc ⊢
  exact hc.imp_left Or.inl

theorem exists_of_isIdentifier {k : Text} (hk : isIdentifier k = true) :
    ∃ c t, k = c :: t ∧ ∀ d ∈ k, isNameChar d = true := by
  rcases k with _ | ⟨c, t⟩
  · exact absurd hk (by decide)
  · simp only [isIdentifier, Bool.and_eq_true, List.all_eq_true] at hk
    exact ⟨c, t, rfl, List.forall_mem_cons.mpr ⟨isNameChar_of_isNameStart hk.1, hk.2⟩⟩

theorem unwrap_cons_of_ne {c : Char} (hbrace : c ≠ '{') (hquote : c ≠ '"') (t : Text) :
    unwrap (c :: t) = c :: t := by simp [unwrap, between?, hbrace, hquote]

/-- **An identifier has no wrapping.** -/
theorem identifier?_of_isIdentifier {k : Text} (hk : isIdentifier k = true) :
    identifier? k = some k := by
  obtain ⟨c, t, rfl, hchars⟩ := exists_of_isIdentifier hk
  have hc := hchars c List.mem_cons_self
  have hunwrap : unwrap (c :: t) = c :: t :=
    unwrap_cons_of_ne (ne_of_isNameChar hc (by decide)) (ne_of_isNameChar hc (by decide)) t
  rw [identifier?, hunwrap, if_pos hk]

theorem isSymbolName_of_isIdentifier {k : Text} (hk : isIdentifier k = true) :
    isSymbolName k = true := by
  obtain ⟨c, t, rfl, hchars⟩ := exists_of_isIdentifier hk
  exact isSymbolName_of (List.cons_ne_nil c t) fun d hd => by simp [isSymbolChar, hchars d hd]

end TclAtlas.Text
