import TclAtlas.Proofs.Word.Spacing

/-!
# Proofs/Word/Reading — reading the words of a text from left to right

White space before a word is passed over (`wordsFrom_gap_append`), and a text that leaves nothing
open and whose white space is all nested is one word when white space follows
(`IsWord.wordsFrom_append`).  Such are the texts of ordinary characters (`IsWord.of_text`), and
ordinary characters and white space between two braces (`IsWord.braced`).
-/

namespace TclAtlas

/-! ## Characters that are lexemes of their own -/

section

variable {c : Char} (hc : c ≠ '\\') (hruns : (LexemeKind.ofChar c).runs = false)

include hc hruns

theorem lexemes_cons_of_single (t : Text) : lexemes (c :: t) = ⟨.ofChar c, [c]⟩ :: lexemes t := by
  have hparts : Parts [c] t := by simp [Parts, hruns]
  rw [lexemes_cons_of_ne hc, attach_lexemes_of_parts hparts]

theorem lexemes_append_cons_of_single {s : Text} (hs : '\\' ∉ s) (t : Text) :
    lexemes (s ++ c :: t) = lexemes s ++ ⟨.ofChar c, [c]⟩ :: lexemes t := by
  have hparts : Parts s (c :: t) := by
    intro d _ e he hd hkind
    obtain rfl : c = e := by simpa using he
    rw [hkind, hruns] at hd
    exact absurd hd (by decide)
  rw [lexemes_append hs hparts, lexemes_cons_of_single hc hruns]

end

/-- **The lexemes of ordinary characters and white space** are runs of them. -/
theorem runs_of_mem_lexemes {t : Text} (ht : ∀ c ∈ t, (LexemeKind.ofChar c).runs = true) :
    ∀ l ∈ lexemes t, l.kind.runs = true := by
  intro l hl
  have hesc : '\\' ∉ t := fun h => absurd (ht _ h) (by decide)
  obtain ⟨c, hc, hkind⟩ := exists_ofChar_of_mem hesc hl
  exact hkind ▸ ht c hc

/-! ## Words one after the other -/

/-- **The words of a text** that begins at a byte position. -/
def wordsFrom (n : Nat) (t : Text) : List Word := Word.gather none .flat (Token.layout n (lexemes t))

theorem splitWords_eq_wordsFrom (t : Text) : splitWords t = wordsFrom 0 t := rfl

theorem wordsFrom_cons_of_whitespace {c : Char} (hc : LexemeKind.ofChar c = .whitespace) (n : Nat)
    (t : Text) : wordsFrom n (c :: t) = wordsFrom (n + c.utf8Size) t := by
  have hne : c ≠ '\\' := by
    rintro rfl
    exact absurd hc (by decide)
  rw [wordsFrom, wordsFrom, lexemes_cons_of_ne hne, hc]
  rcases lexemes t with _ | ⟨l, ls⟩
  · simp [Lexeme.attach, Token.layout, Word.gather]
  · rw [Lexeme.attach]
    split
    · next hl => simp [Token.layout, Word.gather, hl.2, Nat.add_assoc]
    · simp [Token.layout, Word.gather]

/-- **White space before the words** is passed over. -/
theorem wordsFrom_gap_append : ∀ {gap : Text}, IsGap gap → ∀ (n : Nat) (t : Text),
    wordsFrom n (gap ++ t) = wordsFrom (n + Text.byteLength gap) t
  | [], _, _, _ => rfl
  | c :: gap, h, n, t => by
    have hgap : IsGap gap := fun d hd => h d (List.mem_cons_of_mem c hd)
    rw [List.cons_append, wordsFrom_cons_of_whitespace (h c List.mem_cons_self),
      wordsFrom_gap_append hgap, Text.byteLength_cons, Nat.add_assoc]

/-- A word that has begun ends where white space follows. -/
theorem gather_of_endsWord {t : Text} (ht : EndsWord t) (w : Word) (n : Nat) :
    Word.gather (some w) .flat (Token.layout n (lexemes t)) = w :: wordsFrom n t := by
  rcases t with _ | ⟨c, t⟩
  · rfl
  · have hc : LexemeKind.ofChar c = .whitespace := ht c rfl
    obtain ⟨l, ls, hls⟩ := List.exists_cons_of_ne_nil (lexemes_ne_nil c t)
    have hne : c ≠ '\\' := by
      rintro rfl
      exact absurd hc (by decide)
    have hl : l.kind = .whitespace := (kind_of_head hls (ne_escape_of_head hne hls)).trans hc
    rw [wordsFrom, hls]
    simp [Token.layout, Word.gather, hl]

/-! ## Lexemes of one word -/

namespace Nesting

/-- The nesting after several lexemes. -/
def afterAll (n : Nesting) (ls : List Lexeme) : Nesting := ls.foldl (fun n l => n.after l.kind) n

@[simp] theorem afterAll_nil (n : Nesting) : n.afterAll [] = n := rfl

@[simp] theorem afterAll_cons (n : Nesting) (l : Lexeme) (ls : List Lexeme) :
    n.afterAll (l :: ls) = (n.after l.kind).afterAll ls := rfl

@[simp] theorem afterAll_append (n : Nesting) (ls ms : List Lexeme) :
    n.afterAll (ls ++ ms) = (n.afterAll ls).afterAll ms := List.foldl_append

/-- **Lexemes that belong to one word**: white space among them is nested. -/
def Keeps : Nesting → List Lexeme → Prop
  | _, [] => True
  | n, l :: ls => (l.kind = .whitespace → n.isOpen = true) ∧ Keeps (n.after l.kind) ls

theorem keeps_append : ∀ {n : Nesting} {ls ms : List Lexeme},
    n.Keeps (ls ++ ms) ↔ n.Keeps ls ∧ (n.afterAll ls).Keeps ms
  | _, [], _ => by simp [Keeps]
  | n, l :: ls, ms => by
    have ih : (n.after l.kind).Keeps (ls ++ ms) ↔
        (n.after l.kind).Keeps ls ∧ ((n.after l.kind).afterAll ls).Keeps ms := keeps_append
    simp only [List.cons_append, Keeps, afterAll_cons, ih, and_assoc]

theorem after_of_runs {k : LexemeKind} (hk : k.runs = true) (n : Nesting) : n.after k = n := by
  cases k <;> first | rfl | exact absurd hk (by decide)

/-- **Ordinary characters and white space** leave the nesting as it is. -/
theorem afterAll_of_runs : ∀ {ls : List Lexeme}, (∀ l ∈ ls, l.kind.runs = true) →
    ∀ n : Nesting, n.afterAll ls = n
  | [], _, _ => rfl
  | l :: ls, h, n => by
    rw [afterAll_cons, after_of_runs (h l List.mem_cons_self),
      afterAll_of_runs fun m hm => h m (List.mem_cons_of_mem l hm)]

theorem keeps_of_runs : ∀ {ls : List Lexeme}, (∀ l ∈ ls, l.kind.runs = true) →
    ∀ {n : Nesting}, n.isOpen = true → n.Keeps ls
  | [], _, _, _ => trivial
  | l :: ls, h, n, hn => by
    refine ⟨fun _ => hn, ?_⟩
    rw [after_of_runs (h l List.mem_cons_self)]
    exact keeps_of_runs (fun m hm => h m (List.mem_cons_of_mem l hm)) hn

end Nesting

theorem Token.layout_append : ∀ (n : Nat) (ls ms : List Lexeme), layout n (ls ++ ms) =
    layout n ls ++ layout (n + Text.byteLength (ls.flatMap Lexeme.text)) ms
  | _, [], _ => rfl
  | n, l :: ls, ms => by
    simp [layout, layout_append (n + Text.byteLength l.text) ls ms, Nat.add_assoc]

/-- A word that has begun takes in lexemes that belong to one word. -/
theorem gather_append_of_keeps : ∀ {ls : List Lexeme} {n : Nesting}, n.Keeps ls →
    ∀ (w : Word) (start : Nat) (ts : List Token),
      Word.gather (some w) n (Token.layout start ls ++ ts) =
        Word.gather (some ⟨w.text ++ ls.flatMap Lexeme.text, w.start⟩) (n.afterAll ls) ts
  | [], _, _, w, _, _ => by simp [Token.layout]
  | l :: ls, n, h, w, start, ts => by
    have hl : ¬(l.kind = .whitespace ∧ n.isOpen = false) := fun hl => by
      simp [h.1 hl.1] at hl
    rw [Token.layout, List.cons_append, Word.gather, if_neg hl, Word.extend,
      gather_append_of_keeps h.2]
    simp

/-- **A word is read off** a text that goes on with white space, when it is lexed apart from the
rest, its lexemes belong to one word and it leaves nothing open. -/
theorem wordsFrom_append_of_keeps {w t : Text} (hne : w ≠ [])
    (hapart : lexemes (w ++ t) = lexemes w ++ lexemes t) (hkeeps : Nesting.flat.Keeps (lexemes w))
    (hclosed : Nesting.flat.afterAll (lexemes w) = .flat) (ht : EndsWord t) (n : Nat) :
    wordsFrom n (w ++ t) = ⟨w, n⟩ :: wordsFrom (n + Text.byteLength w) t := by
  have hflat := lexemes_flatten w
  obtain ⟨c, cs, rfl⟩ := List.exists_cons_of_ne_nil hne
  obtain ⟨l, ls, hls⟩ := List.exists_cons_of_ne_nil (lexemes_ne_nil c cs)
  rw [hls] at hflat hkeeps hclosed
  have hl : ¬(l.kind = .whitespace ∧ Nesting.flat.isOpen = false) := fun hl => by
    simpa using hkeeps.1 hl.1
  have hword : l.text ++ ls.flatMap Lexeme.text = c :: cs := by simpa using hflat
  have hlength : n + Text.byteLength l.text + Text.byteLength (ls.flatMap Lexeme.text) =
      n + Text.byteLength (c :: cs) := by
    rw [← hword, Text.byteLength_append, Nat.add_assoc]
  rw [wordsFrom, hapart, hls, List.cons_append, Token.layout, Word.gather, if_neg hl,
    Token.layout_append, gather_append_of_keeps hkeeps.2, ← Nesting.afterAll_cons, hclosed, hlength,
    gather_of_endsWord ht]
  simp [Word.extend, hword]

/-- **A text that is one word** wherever white space stands around it. -/
structure IsWord (w : Text) : Prop where
  ne_nil : w ≠ []
  noEscape : '\\' ∉ w
  keeps : Nesting.flat.Keeps (lexemes w)
  closed : Nesting.flat.afterAll (lexemes w) = .flat
  last : ∀ c ∈ w.getLast?, LexemeKind.ofChar c ≠ .whitespace

namespace IsWord

variable {w : Text}

/-- **A word is read off** a text that goes on with white space. -/
theorem wordsFrom_append (h : IsWord w) {t : Text} (ht : EndsWord t) (n : Nat) :
    wordsFrom n (w ++ t) = ⟨w, n⟩ :: wordsFrom (n + Text.byteLength w) t := by
  have hparts : Parts w t := by
    intro c hc d hd _ hkind
    exact h.last c hc (hkind.trans (ht d hd))
  exact wordsFrom_append_of_keeps h.ne_nil (lexemes_append h.noEscape hparts) h.keeps h.closed ht n

theorem wordsFrom_space (h : IsWord w) (t : Text) (n : Nat) :
    wordsFrom n (w ++ ' ' :: t) = ⟨w, n⟩ :: wordsFrom (n + Text.byteLength w + 1) t := by
  have hspace : EndsWord (' ' :: t) := by
    intro c hc
    obtain rfl : ' ' = c := by simpa using hc
    rfl
  rw [h.wordsFrom_append hspace, wordsFrom_cons_of_whitespace (by decide)]
  rfl

/-- **Ordinary characters are a word.** -/
theorem of_text (hne : w ≠ []) (hw : ∀ c ∈ w, LexemeKind.ofChar c = .text) : IsWord w where
  ne_nil := hne
  noEscape h := absurd (hw _ h) (by decide)
  keeps := by
    rw [lexemes_of_run rfl hne hw]
    simp [Nesting.Keeps]
  closed := by
    rw [lexemes_of_run rfl hne hw]
    rfl
  last c hc := by simp [hw c (List.mem_of_getLast? hc)]

/-- **Ordinary characters and white space between braces are a word.** -/
theorem braced {t : Text} (ht : ∀ c ∈ t, (LexemeKind.ofChar c).runs = true) :
    IsWord ('{' :: (t ++ ['}'])) := by
  have hesc : '\\' ∉ t := fun h => absurd (ht _ h) (by decide)
  have hlexemes : lexemes ('{' :: (t ++ ['}'])) =
      ⟨.openBrace, ['{']⟩ :: (lexemes t ++ [⟨.closeBrace, ['}']⟩]) := by
    rw [lexemes_cons_of_single (by decide) (by decide),
      lexemes_append_cons_of_single (by decide) (by decide) hesc]
    rfl
  have hruns := runs_of_mem_lexemes ht
  refine ⟨by simp, by simp [hesc], ?_, ?_, ?_⟩
  · rw [hlexemes]
    refine ⟨by simp, Nesting.keeps_append.mpr ⟨Nesting.keeps_of_runs hruns rfl, ?_⟩⟩
    simp [Nesting.Keeps]
  · rw [hlexemes, Nesting.afterAll_cons, Nesting.afterAll_append, Nesting.afterAll_of_runs hruns]
    rfl
  · rw [← List.cons_append, List.getLast?_append]
    simp [LexemeKind.ofChar]

end IsWord

end TclAtlas
