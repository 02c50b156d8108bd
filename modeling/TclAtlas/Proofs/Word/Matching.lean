import TclAtlas.Proofs.Word.Closed

/-!
# Proofs/Word/Matching — delimiters counted in the characters of a text

The delimiters of one pair **match** in a text when it closes no group that it did not open and
leaves none open (`Delimiter.Matched`).  The other pair does not enter into this.  In a text without
backslashes and quotes every delimiter is a lexeme of its own, so what the nesting of words counts
can be told from the characters: `Nesting.braces_afterAll` for braces, and
`Nesting.paired_brackets_iff` for brackets, which words and bracket groups are sure to count alike
only as long as none is closed that is not open.
-/

namespace TclAtlas

namespace Delimiter

/-- **How many groups are open after a text** when `n` are before it; `none` if the text closes one
that is not open. -/
def openAfter? (d : Delimiter) : Nat → Text → Option Nat
  | n, [] => some n
  | n, c :: t =>
    if c = d.openChar then openAfter? d (n + 1) t
    else if c = d.closeChar then if n = 0 then none else openAfter? d (n - 1) t
    else openAfter? d n t

/-- **The delimiters of a text match.** -/
def Matched (d : Delimiter) (t : Text) : Prop := d.openAfter? 0 t = some 0

instance (d : Delimiter) (t : Text) : Decidable (d.Matched t) :=
  inferInstanceAs (Decidable (_ = _))

end Delimiter

/-! ## Characters of a text without quotes and backslashes -/

/-- **A text whose delimiters all count**: it has no quotes and no backslashes. -/
structure IsBare (t : Text) : Prop where
  noQuote : '"' ∉ t
  noEscape : '\\' ∉ t

namespace IsBare

theorem of_cons {c : Char} {t : Text} (h : IsBare (c :: t)) :
    c ≠ '"' ∧ c ≠ '\\' ∧ IsBare t := by
  obtain ⟨hquote, hescape⟩ := h
  simp only [List.mem_cons, not_or] at hquote hescape
  exact ⟨Ne.symm hquote.1, Ne.symm hescape.1, hquote.2, hescape.2⟩

end IsBare

/-! ## Texts in braces -/

/-- **A text in braces.** -/
def braced (v : Text) : Text := '{' :: (v ++ ['}'])

/-- **A text that is a value when put in braces**: its braces match, and there are no quotes and no
backslashes in it. -/
structure IsBraceable (v : Text) : Prop extends IsBare v where
  matched : Delimiter.brace.Matched v

instance (v : Text) : Decidable (IsBraceable v) :=
  decidable_of_iff (('"' ∉ v ∧ '\\' ∉ v) ∧ Delimiter.brace.Matched v)
    ⟨fun h => ⟨⟨h.1.1, h.1.2⟩, h.2⟩, fun h => ⟨⟨h.noQuote, h.noEscape⟩, h.matched⟩⟩

/-! ## Counting characters as lexemes -/

namespace LexemeKind

/-- A character that is no delimiter, quote or backslash belongs to a run. -/
theorem runs_ofChar {c : Char} (hquote : c ≠ '"') (hescape : c ≠ '\\') (hopen : c ≠ '{')
    (hclose : c ≠ '}') (hopen' : c ≠ '[') (hclose' : c ≠ ']') : (ofChar c).runs = true := by
  unfold ofChar
  rw [if_neg hescape, if_neg hquote, if_neg hopen, if_neg hclose, if_neg hopen', if_neg hclose']
  split <;> rfl

end LexemeKind

namespace Nesting

/-! ## Attaching a character -/

/-- A character attached to the lexemes does to the nesting what it does on its own. -/
theorem afterAll_attach (n : Nesting) (k : LexemeKind) (c : Char) (ls : List Lexeme) :
    n.afterAll (Lexeme.attach k c ls) = (n.after k).afterAll ls := by
  rcases ls with _ | ⟨l, ls⟩
  · rfl
  · rw [Lexeme.attach]
    split
    · next h =>
      obtain ⟨hruns, hkind⟩ := h
      simp [hkind, after_of_runs hruns]
    · rfl

theorem paired_attach {n : Nesting} {k : LexemeKind} {c : Char} {ls : List Lexeme} :
    n.Paired (Lexeme.attach k c ls) ↔
      (k = .closeBracket → n.quoted = false → n.brackets ≠ 0) ∧ (n.after k).Paired ls := by
  rcases ls with _ | ⟨l, ls⟩
  · rfl
  · rw [Lexeme.attach]
    split
    · next h =>
      obtain ⟨hruns, rfl⟩ := h
      have hk : l.kind ≠ .closeBracket := fun hk => by simp [hk, LexemeKind.runs] at hruns
      simp [Paired, hk, after_of_runs hruns]
    · rfl

theorem keeps_attach {n : Nesting} {k : LexemeKind} {c : Char} {ls : List Lexeme}
    (hk : k = .whitespace → n.isOpen = true) (hls : (n.after k).Keeps ls) :
    n.Keeps (Lexeme.attach k c ls) := by
  rcases ls with _ | ⟨l, ls⟩
  · exact ⟨hk, trivial⟩
  · rw [Lexeme.attach]
    split
    · next h =>
      obtain ⟨hruns, rfl⟩ := h
      exact ⟨hk, after_of_runs hruns (n.after l.kind) ▸ hls.2⟩
    · exact ⟨hk, hls⟩

/-! ## Braces -/

/-- **Braces within braces**: matching braces leave as many open as before, and nothing ends a word
as long as one stays open around them. -/
theorem braces_afterAll : ∀ {t : Text}, IsBare t → ∀ {m m' : Nat},
    Delimiter.brace.openAfter? m t = some m' → ∀ brackets : Nat, ∃ brackets',
      (⟨m + 1, brackets, false⟩ : Nesting).afterAll (lexemes t) = ⟨m' + 1, brackets', false⟩ ∧
        (⟨m + 1, brackets, false⟩ : Nesting).Keeps (lexemes t)
  | [], _, m, m', h, b => ⟨b, by simpa [lexemes, Delimiter.openAfter?] using h, trivial⟩
  | c :: t, ht, m, m', h, b => by
    obtain ⟨hquote, hescape, ht⟩ := ht.of_cons
    have hopen : (⟨m + 1, b, false⟩ : Nesting).isOpen = true := by simp [isOpen]
    -- each kind of character leads to a nesting from which the rest of the text goes on
    have step : ∀ {k : Nat}, Delimiter.brace.openAfter? k t = some m' → ∀ b' : Nat,
        (⟨m + 1, b, false⟩ : Nesting).after (.ofChar c) = ⟨k + 1, b', false⟩ → ∃ brackets',
          (⟨m + 1, b, false⟩ : Nesting).afterAll (lexemes (c :: t)) = ⟨m' + 1, brackets', false⟩ ∧
            (⟨m + 1, b, false⟩ : Nesting).Keeps (lexemes (c :: t)) := by
      intro k hk b' hafter
      obtain ⟨brackets', hall, hkeeps⟩ := braces_afterAll ht hk b'
      rw [lexemes_cons_of_ne hescape, afterAll_attach, hafter]
      exact ⟨brackets', hall, keeps_attach (fun _ => hopen) (hafter ▸ hkeeps)⟩
    rw [Delimiter.openAfter?] at h
    split at h
    · next hc => subst hc; exact step h b rfl
    · next hc =>
      split at h
      · next hc' =>
        subst hc'
        split at h
        · simp at h
        · next hm =>
          refine step h b ?_
          simp [LexemeKind.ofChar, Delimiter.closeChar, after]
          omega
      · next hc' =>
        by_cases hbracket : c = '['
        · subst hbracket; exact step h (b + 1) rfl
        · by_cases hbracket' : c = ']'
          · subst hbracket'; exact step h (b - 1) rfl
          · exact step h b (after_of_runs
              (LexemeKind.runs_ofChar hquote hescape hc hc' hbracket hbracket') _)

/-! ## Brackets -/

/-- A character other than brackets leaves the brackets as they are. -/
theorem exists_after {c : Char} (hquote : c ≠ '"') (hescape : c ≠ '\\') (hopen : c ≠ '[')
    (hclose : c ≠ ']') (braces brackets : Nat) : LexemeKind.ofChar c ≠ .closeBracket ∧
      ∃ braces', (⟨braces, brackets, false⟩ : Nesting).after (.ofChar c) =
        ⟨braces', brackets, false⟩ := by
  by_cases hbrace : c = '{'
  · subst hbrace; exact ⟨by decide, _, rfl⟩
  by_cases hbrace' : c = '}'
  · subst hbrace'; exact ⟨by decide, _, rfl⟩
  have hruns := LexemeKind.runs_ofChar hquote hescape hbrace hbrace' hopen hclose
  refine ⟨fun hc => ?_, braces, after_of_runs hruns _⟩
  rw [hc] at hruns
  exact absurd hruns (by decide)

/-- **Brackets are paired as their characters match.** -/
theorem paired_brackets_iff : ∀ {t : Text}, IsBare t → ∀ (braces : Nat) {b b' : Nat},
    Delimiter.bracket.openAfter? b t = some b' ↔
      (⟨braces, b, false⟩ : Nesting).Paired (lexemes t) ∧
        ((⟨braces, b, false⟩ : Nesting).afterAll (lexemes t)).brackets = b'
  | [], _, _, b, b' => by simp [Delimiter.openAfter?, lexemes, Paired]
  | c :: t, ht, a, b, b' => by
    obtain ⟨hquote, hescape, hrest⟩ := ht.of_cons
    rw [lexemes_cons_of_ne hescape, paired_attach, afterAll_attach, Delimiter.openAfter?]
    split
    · next hc =>
      subst hc
      rw [paired_brackets_iff hrest a]
      simp [Delimiter.openChar, LexemeKind.ofChar, after]
    · next hc =>
      split
      · next hc' =>
        subst hc'
        split
        · next hb => simp [hb, Delimiter.closeChar, LexemeKind.ofChar]
        · next hb =>
          rw [paired_brackets_iff hrest a]
          simp [hb, Delimiter.closeChar, LexemeKind.ofChar, after]
      · next hc' =>
        obtain ⟨hkind, a', hafter⟩ := exists_after hquote hescape hc hc' a b
        rw [paired_brackets_iff hrest a', hafter]
        simp [hkind]

end Nesting

end TclAtlas
