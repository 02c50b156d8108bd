import TclAtlas.Token

/-!
# Proofs/Word/Lexing — lexemes told by their characters

A lexeme that is no escape consists of characters of its own kind (`ofChar_of_mem_text`), so what
kinds of lexemes a text has can be read off its characters (`exists_ofChar_of_mem`).  Texts are
lexed apart where no run goes over from the one to the other (`lexemes_append`), and a run of
characters of one kind is one lexeme (`lexemes_of_run`).
-/

namespace TclAtlas

namespace LexemeKind

theorem ofChar_ne_escape (c : Char) : ofChar c ≠ escape := by
  unfold ofChar
  repeat' split
  all_goals simp

end LexemeKind

namespace Lexeme

/-! ## Attaching a character -/

theorem attach_ne_nil (k : LexemeKind) (c : Char) : ∀ ls, attach k c ls ≠ []
  | [] => by simp [attach]
  | l :: ls => by
    rw [attach]
    split <;> simp

/-- A character is attached to the first lexeme, whatever follows. -/
theorem attach_append (k : LexemeKind) (c : Char) (ms : List Lexeme) :
    ∀ {ls : List Lexeme}, ls ≠ [] → attach k c (ls ++ ms) = attach k c ls ++ ms
  | l :: ls, _ => by
    rw [List.cons_append, attach, attach]
    split <;> simp

theorem mem_attach {k : LexemeKind} {c : Char} {ls : List Lexeme} {l : Lexeme}
    (h : l ∈ attach k c ls) :
    l ∈ ls ∨ l = ⟨k, [c]⟩ ∨ ∃ m ∈ ls, m.kind = k ∧ l = ⟨k, c :: m.text⟩ := by
  cases ls with
  | nil => exact Or.inr (Or.inl (by simpa [attach] using h))
  | cons m ls =>
    rw [attach] at h
    split at h
    · next hk =>
      rcases List.mem_cons.mp h with rfl | h
      · exact Or.inr (Or.inr ⟨m, List.mem_cons_self, hk.2, rfl⟩)
      · exact Or.inl (List.mem_cons_of_mem m h)
    · rcases List.mem_cons.mp h with rfl | h
      · exact Or.inr (Or.inl rfl)
      · exact Or.inl h

end Lexeme

theorem lexemes_cons_of_ne {c : Char} (hc : c ≠ '\\') : ∀ t : Text,
    lexemes (c :: t) = Lexeme.attach (.ofChar c) c (lexemes t)
  | [] => rfl
  | d :: t => by rw [lexemes, if_neg fun h => hc h.1]

theorem lexemes_ne_nil (c : Char) : ∀ t : Text, lexemes (c :: t) ≠ []
  | [] => by simp [lexemes]
  | d :: t => by
    rw [lexemes]
    split
    · simp
    · exact Lexeme.attach_ne_nil _ _ _

/-! ## The characters of a lexeme -/

/-- **What a lexeme is made of**: an escape of a backslash and one more character, any other
lexeme of characters of its kind, at least one. -/
def Lexeme.Formed (l : Lexeme) : Prop :=
  (l.kind = .escape ∧ ∃ d, l.text = ['\\', d]) ∨
    (l.kind ≠ .escape ∧ l.text ≠ [] ∧ ∀ c ∈ l.text, LexemeKind.ofChar c = l.kind)

theorem Lexeme.formed_single (c : Char) : Formed ⟨.ofChar c, [c]⟩ :=
  Or.inr ⟨LexemeKind.ofChar_ne_escape c, by simp, by simp⟩

theorem formed_of_mem_lexemes : ∀ {t : Text} {l : Lexeme}, l ∈ lexemes t → l.Formed
  | [], l, h => absurd h (by simp [lexemes])
  | [c], l, h => by
    obtain rfl : l = ⟨.ofChar c, [c]⟩ := by simpa [lexemes] using h
    exact Lexeme.formed_single c
  | c :: d :: t, l, h => by
    rw [lexemes] at h
    split at h
    · next hesc =>
      rcases List.mem_cons.mp h with rfl | h
      · exact Or.inl ⟨rfl, d, by rw [hesc.1]⟩
      · exact formed_of_mem_lexemes h
    · rcases Lexeme.mem_attach h with h | rfl | ⟨m, hm, hkind, rfl⟩
      · exact formed_of_mem_lexemes h
      · exact Lexeme.formed_single c
      · rcases formed_of_mem_lexemes hm with ⟨hesc, -⟩ | ⟨-, -, hchars⟩
        · exact absurd (hkind.symm.trans hesc) (LexemeKind.ofChar_ne_escape c)
        · refine Or.inr ⟨LexemeKind.ofChar_ne_escape c, by simp, ?_⟩
          intro e he
          rcases List.mem_cons.mp he with rfl | he
          · rfl
          · exact (hchars e he).trans hkind

theorem text_ne_nil_of_mem {t : Text} {l : Lexeme} (h : l ∈ lexemes t) : l.text ≠ [] := by
  rcases formed_of_mem_lexemes h with ⟨-, d, hd⟩ | ⟨-, hne, -⟩
  · simp [hd]
  · exact hne

/-- **A lexeme that is no escape consists of characters of its kind.** -/
theorem ofChar_of_mem_text {t : Text} {l : Lexeme} (h : l ∈ lexemes t) (hl : l.kind ≠ .escape)
    {c : Char} (hc : c ∈ l.text) : LexemeKind.ofChar c = l.kind := by
  rcases formed_of_mem_lexemes h with ⟨hesc, -⟩ | ⟨-, -, hchars⟩
  · exact absurd hesc hl
  · exact hchars c hc

theorem mem_of_mem_lexeme {t : Text} {l : Lexeme} (h : l ∈ lexemes t) {c : Char}
    (hc : c ∈ l.text) : c ∈ t :=
  lexemes_flatten t ▸ List.mem_flatMap.mpr ⟨l, h, hc⟩

/-- **Without backslashes every kind of lexeme is the kind of a character.** -/
theorem exists_ofChar_of_mem {t : Text} (ht : '\\' ∉ t) {l : Lexeme} (h : l ∈ lexemes t) :
    ∃ c ∈ t, LexemeKind.ofChar c = l.kind := by
  rcases formed_of_mem_lexemes h with ⟨-, d, hd⟩ | ⟨-, hne, hchars⟩
  · exact absurd (mem_of_mem_lexeme h (hd ▸ List.mem_cons_self)) ht
  · obtain ⟨c, hc⟩ := List.exists_mem_of_ne_nil _ hne
    exact ⟨c, mem_of_mem_lexeme h hc, hchars c hc⟩

/-! ## Texts put together -/

/-- **No run goes over** from the end of a text to the start of another. -/
def Parts (s t : Text) : Prop :=
  ∀ c ∈ s.getLast?, ∀ d ∈ t.head?,
    (LexemeKind.ofChar c).runs = true → LexemeKind.ofChar c ≠ .ofChar d

/-- The first lexeme begins with the first character. -/
theorem exists_text_of_head {d : Char} {t : Text} {l : Lexeme} {ls : List Lexeme}
    (h : lexemes (d :: t) = l :: ls) : ∃ cs, l.text = d :: cs := by
  have hflat := lexemes_flatten (d :: t)
  rw [h, List.flatMap_cons] at hflat
  obtain ⟨c, cs, hc⟩ := List.exists_cons_of_ne_nil (text_ne_nil_of_mem (h ▸ List.mem_cons_self))
  obtain ⟨rfl, -⟩ : c = d ∧ cs ++ ls.flatMap Lexeme.text = t := by simpa [hc] using hflat
  exact ⟨cs, hc⟩

/-- **The first lexeme has the kind of the first character**, if it is no escape. -/
theorem kind_of_head {d : Char} {t : Text} {l : Lexeme} {ls : List Lexeme}
    (h : lexemes (d :: t) = l :: ls) (hl : l.kind ≠ .escape) : l.kind = .ofChar d := by
  obtain ⟨cs, hcs⟩ := exists_text_of_head h
  exact (ofChar_of_mem_text (h ▸ List.mem_cons_self) hl (hcs ▸ List.mem_cons_self)).symm

theorem ne_escape_of_head {d : Char} (hd : d ≠ '\\') {t : Text} {l : Lexeme} {ls : List Lexeme}
    (h : lexemes (d :: t) = l :: ls) : l.kind ≠ .escape := by
  intro hl
  obtain ⟨cs, hcs⟩ := exists_text_of_head h
  rcases formed_of_mem_lexemes (h ▸ List.mem_cons_self) with ⟨-, e, he⟩ | ⟨hne, -⟩
  · exact hd (List.cons.inj (hcs.symm.trans he)).1
  · exact hne hl

/-- A character of no run with what follows is a lexeme of its own. -/
theorem attach_lexemes_of_parts {c : Char} {t : Text} (h : Parts [c] t) :
    Lexeme.attach (.ofChar c) c (lexemes t) = ⟨.ofChar c, [c]⟩ :: lexemes t := by
  cases t with
  | nil => rfl
  | cons d t =>
    obtain ⟨l, ls, hls⟩ := List.exists_cons_of_ne_nil (lexemes_ne_nil d t)
    rw [hls, Lexeme.attach, if_neg]
    rintro ⟨hruns, hkind⟩
    refine h c rfl d rfl hruns ?_
    have hesc : l.kind ≠ .escape := fun hl => LexemeKind.ofChar_ne_escape c (hkind.symm.trans hl)
    exact hkind.symm.trans (kind_of_head hls hesc)

/-- **Texts are lexed apart** where no run goes over and no backslash could escape. -/
theorem lexemes_append : ∀ {s : Text}, '\\' ∉ s → ∀ {t : Text}, Parts s t →
    lexemes (s ++ t) = lexemes s ++ lexemes t
  | [], _, _, _ => rfl
  | [c], hs, t, h => by
    have hc : c ≠ '\\' := fun hc => hs (by simp [hc])
    rw [List.singleton_append, lexemes_cons_of_ne hc, attach_lexemes_of_parts h]
    rfl
  | c :: d :: s, hs, t, h => by
    have hc : c ≠ '\\' := fun hc => hs (by simp [hc])
    have hds : '\\' ∉ d :: s := fun hmem => hs (List.mem_cons_of_mem c hmem)
    have hrest : Parts (d :: s) t := by
      simpa [Parts, List.getLast?_cons_cons] using h
    rw [List.cons_append, lexemes_cons_of_ne hc, lexemes_append hds hrest,
      Lexeme.attach_append _ _ _ (lexemes_ne_nil d s), ← lexemes_cons_of_ne hc]

/-- **A run of characters of one kind is one lexeme.** -/
theorem lexemes_of_run {k : LexemeKind} (hk : k.runs = true) : ∀ {s : Text}, s ≠ [] →
    (∀ c ∈ s, LexemeKind.ofChar c = k) → lexemes s = [⟨k, s⟩]
  | [c], _, h => by rw [lexemes, h c List.mem_cons_self]
  | c :: d :: s, _, h => by
    have hc : c ≠ '\\' := by
      rintro rfl
      have hkind := h '\\' List.mem_cons_self
      rw [← hkind] at hk
      exact absurd hk (by decide)
    have hrest := lexemes_of_run hk (List.cons_ne_nil d s)
      fun e he => h e (List.mem_cons_of_mem c he)
    rw [lexemes_cons_of_ne hc, hrest, h c List.mem_cons_self]
    simp [Lexeme.attach, hk]

end TclAtlas
