import TclAtlas.Proofs.Word.Reading
import TclAtlas.Word.Group

/-!
# Proofs/Word/Closed — words that close what they open

A **closed word** is one word that leaves nothing open, never closes a bracket that it did not open,
and does not end in a backslash that would escape what follows (`IsClosedWord`).  Words are told
apart by one matcher of delimiters and the content of a bracket group by another, which does not
look at braces.  On closed words the two agree: both count the same brackets, so closed words can
stand between brackets and leave them alone (`IsBalanced.content?_bracketed`), and the group is a
closed word again (`IsBalanced.bracketed`).
-/

namespace TclAtlas

/-! ## Lexemes that end before a text -/

/-- **Lexemes end before a text**: the last one does not escape its first character, nor does that
character lengthen it. -/
def EndsBefore (ls : List Lexeme) (t : Text) : Prop :=
  ∀ k, ls.getLast?.map Lexeme.kind = some k →
    k ≠ .backslash ∧ (k.runs = true → ∀ d ∈ t.head?, LexemeKind.ofChar d ≠ k)

theorem EndsBefore.of_cons {l : Lexeme} {ls : List Lexeme} {t : Text}
    (h : EndsBefore (l :: ls) t) : EndsBefore ls t := by
  intro k hk
  rcases ls with _ | ⟨m, ls⟩
  · exact absurd hk (by simp)
  · exact h k (by rwa [List.getLast?_cons_cons])

/-- Attaching a character leaves the kind of the last lexeme. -/
theorem Lexeme.getLast?_attach (k : LexemeKind) (c : Char) : ∀ {ls : List Lexeme}, ls ≠ [] →
    (attach k c ls).getLast?.map kind = ls.getLast?.map kind
  | [l], _ => by
    rw [attach]
    split
    · next h => simp [h.2]
    · simp
  | l :: m :: ls, _ => by
    rw [attach]
    split <;> simp [List.getLast?_cons_cons]

/-- **Texts are lexed apart** where the lexemes of the one end before the other. -/
theorem lexemes_append_of_endsBefore : ∀ {s t : Text}, EndsBefore (lexemes s) t →
    lexemes (s ++ t) = lexemes s ++ lexemes t
  | [], _, _ => rfl
  | [c], t, h => by
    obtain ⟨hbackslash, hruns⟩ := h (.ofChar c) rfl
    have hc : c ≠ '\\' := by
      rintro rfl
      exact hbackslash rfl
    have hparts : Parts [c] t := by
      intro c' hc' d hd hrun heq
      obtain rfl : c = c' := by simpa using hc'
      exact hruns hrun d hd heq.symm
    rw [List.singleton_append, lexemes_cons_of_ne hc, attach_lexemes_of_parts hparts]
    rfl
  | c :: d :: s, t, h => by
    rw [lexemes] at h
    rw [List.cons_append, List.cons_append, lexemes, lexemes]
    split at h
    · next hesc => rw [if_pos hesc, if_pos hesc, lexemes_append_of_endsBefore h.of_cons]; rfl
    · next hesc =>
      have hne := lexemes_ne_nil d s
      have hrest : EndsBefore (lexemes (d :: s)) t := fun k hk =>
        h k ((Lexeme.getLast?_attach _ c hne).trans hk)
      rw [if_neg hesc, if_neg hesc, ← List.cons_append, lexemes_append_of_endsBefore hrest,
        Lexeme.attach_append _ _ _ hne]

/-! ## Brackets that close what brackets opened -/

namespace Nesting

/-- **Brackets are closed only where one is open**, as far as they are not quoted. -/
def Paired : Nesting → List Lexeme → Prop
  | _, [] => True
  | n, l :: ls =>
    (l.kind = .closeBracket → n.quoted = false → n.brackets ≠ 0) ∧ Paired (n.after l.kind) ls

instance decidablePaired : ∀ (n : Nesting) (ls : List Lexeme), Decidable (n.Paired ls)
  | _, [] => isTrue trivial
  | n, l :: ls =>
    have := decidablePaired (n.after l.kind) ls
    inferInstanceAs (Decidable (_ ∧ _))

theorem paired_append : ∀ {n : Nesting} {ls ms : List Lexeme},
    n.Paired (ls ++ ms) ↔ n.Paired ls ∧ (n.afterAll ls).Paired ms
  | _, [], _ => by simp [Paired]
  | n, l :: ls, ms => by
    have ih : (n.after l.kind).Paired (ls ++ ms) ↔
        (n.after l.kind).Paired ls ∧ ((n.after l.kind).afterAll ls).Paired ms := paired_append
    simp only [List.cons_append, Paired, afterAll_cons, ih, and_assoc]

/-- The same nesting with more brackets open around it. -/
def within (n : Nesting) (b : Nat) : Nesting := { n with brackets := n.brackets + b }

/-- A lexeme does the same inside brackets, unless it closes one of these. -/
theorem after_within {n : Nesting} {k : LexemeKind}
    (h : k = .closeBracket → n.quoted = false → n.brackets ≠ 0) (b : Nat) :
    (n.within b).after k = (n.after k).within b := by
  rcases n with ⟨braces, brackets, quoted⟩
  cases k <;> cases quoted <;> simp [after, within] at h ⊢ <;> omega

theorem Paired.within : ∀ {n : Nesting} {ls : List Lexeme}, n.Paired ls → ∀ b : Nat,
    (n.within b).Paired ls
  | _, [], _, _ => trivial
  | n, l :: ls, ⟨hl, hls⟩, b => by
    refine ⟨fun hk hq => ?_, ?_⟩
    · exact Nat.ne_of_gt (Nat.lt_of_lt_of_le (Nat.pos_of_ne_zero (hl hk hq)) (Nat.le_add_right ..))
    · rw [after_within hl]
      exact hls.within b

/-- **Paired brackets do the same inside other brackets.** -/
theorem Paired.afterAll_within : ∀ {n : Nesting} {ls : List Lexeme}, n.Paired ls → ∀ b : Nat,
    (n.within b).afterAll ls = (n.afterAll ls).within b
  | _, [], _, _ => rfl
  | n, l :: ls, ⟨hl, hls⟩, b => by
    rw [afterAll_cons, afterAll_cons, after_within hl, hls.afterAll_within b]

/-- **Inside brackets paired lexemes belong to one word**, for the brackets stay open. -/
theorem Paired.keeps_within : ∀ {n : Nesting} {ls : List Lexeme}, n.Paired ls → ∀ b : Nat,
    (n.within (b + 1)).Keeps ls
  | _, [], _, _ => trivial
  | n, l :: ls, ⟨hl, hls⟩, b => by
    refine ⟨fun _ => by simp [isOpen, Nesting.within], ?_⟩
    rw [after_within hl]
    exact hls.keeps_within b

/-- A lexeme does to the depth of a bracket group what it does to the nesting. -/
theorem untilClose_cons {n : Nesting} {l : Lexeme}
    (h : l.kind = .closeBracket → n.quoted = false → n.brackets ≠ 0) (ls : List Lexeme) (b : Nat) :
    Delimiter.bracket.untilClose (b + n.brackets) n.quoted (l :: ls) = l.text ++
      Delimiter.bracket.untilClose (b + (n.after l.kind).brackets) (n.after l.kind).quoted ls := by
  rcases n with ⟨braces, brackets, quoted⟩
  rcases l with ⟨k, t⟩
  rw [Delimiter.untilClose.eq_def]
  cases quoted with
  | true => cases k <;> simp [Delimiter.heedsQuotes, after]
  | false =>
    cases k with
    | closeBracket =>
      obtain ⟨m, rfl⟩ := Nat.exists_eq_succ_of_ne_zero (h rfl rfl)
      simp [Delimiter.heedsQuotes, Delimiter.opens, Delimiter.closes, after]
    | _ => simp [Delimiter.heedsQuotes, Delimiter.opens, Delimiter.closes, after, Nat.add_assoc]

/-- **The content of a bracket group runs on over paired brackets.** -/
theorem Paired.untilClose_append (ms : List Lexeme) (b : Nat) : ∀ {n : Nesting} {ls : List Lexeme},
    n.Paired ls → Delimiter.bracket.untilClose (b + n.brackets) n.quoted (ls ++ ms) =
      ls.flatMap Lexeme.text ++
        Delimiter.bracket.untilClose (b + (n.afterAll ls).brackets) (n.afterAll ls).quoted ms
  | _, [], _ => rfl
  | n, l :: ls, ⟨hl, hls⟩ => by
    rw [List.cons_append, untilClose_cons hl, hls.untilClose_append ms b, afterAll_cons,
      List.flatMap_cons, List.append_assoc]

end Nesting

/-! ## Closed words -/

/-- **A closed word**: a single word that leaves nothing open, whose brackets outside quotes close
only what brackets opened, and which does not end in a backslash that escapes nothing. -/
structure IsClosedWord (w : Text) : Prop where
  single : (splitWords w).map Word.text = [w]
  closed : Nesting.flat.afterAll (lexemes w) = .flat
  paired : Nesting.flat.Paired (lexemes w)
  last : (lexemes w).getLast?.map Lexeme.kind ≠ some .backslash

instance decidableIsClosedWord (w : Text) : Decidable (IsClosedWord w) :=
  decidable_of_iff ((splitWords w).map Word.text = [w] ∧
      Nesting.flat.afterAll (lexemes w) = .flat ∧ Nesting.flat.Paired (lexemes w) ∧
      (lexemes w).getLast?.map Lexeme.kind ≠ some .backslash)
    ⟨fun ⟨hsingle, hclosed, hpaired, hlast⟩ => ⟨hsingle, hclosed, hpaired, hlast⟩,
      fun h => ⟨h.single, h.closed, h.paired, h.last⟩⟩

/-- Lexemes gathered into the word that has begun belong to one word. -/
theorem keeps_of_gather : ∀ {ls : List Lexeme}, (∀ l ∈ ls, l.text ≠ []) → ∀ {n : Nesting} {w : Word}
    {start : Nat}, (Word.gather (some w) n (Token.layout start ls)).map Word.text =
      [w.text ++ ls.flatMap Lexeme.text] → n.Keeps ls
  | [], _, _, _, _, _ => trivial
  | l :: ls, hne, n, w, start, h => by
    have hrest : ∀ m ∈ ls, m.text ≠ [] := fun m hm => hne m (List.mem_cons_of_mem l hm)
    rw [Token.layout, Word.gather] at h
    split at h
    · -- the word would end here, before the text of `l`
      have hw : w.text = w.text ++ (l :: ls).flatMap Lexeme.text := (List.cons.inj h).1
      have hl : l.text = [] := by
        have hnil := List.self_eq_append_right.mp hw
        rw [List.flatMap_cons] at hnil
        exact (List.append_eq_nil_iff.mp hnil).1
      exact absurd hl (hne l List.mem_cons_self)
    · next hkind =>
      refine ⟨fun hspace => by simpa [hspace] using hkind, keeps_of_gather hrest (h.trans ?_)⟩
      rw [Word.extend, List.flatMap_cons, List.append_assoc]

namespace IsClosedWord

variable {w : Text}

theorem beginsWord (h : IsClosedWord w) : BeginsWord w := by
  obtain ⟨v, hv, hw⟩ : ∃ v, splitWords w = [v] ∧ v.text = w := by
    simpa [List.map_eq_singleton_iff] using h.single
  have hspaced := splitWords_spaced w
  rw [hv] at hspaced
  obtain ⟨-, -, -, -, -, hbegins, -⟩ := hspaced
  exact hw ▸ hbegins

theorem keeps (h : IsClosedWord w) : Nesting.flat.Keeps (lexemes w) := by
  obtain ⟨c, cs, rfl, hc⟩ := h.beginsWord
  obtain ⟨l, ls, hls⟩ := List.exists_cons_of_ne_nil (lexemes_ne_nil c cs)
  have hl : l.kind ≠ .whitespace := by
    intro hkind
    exact hc ((kind_of_head hls (by simp [hkind])).symm.trans hkind)
  have hflat := lexemes_flatten (c :: cs)
  have hsingle := h.single
  rw [splitWords, tokenize, hls, Token.layout, Word.gather, if_neg fun hgap => hl hgap.1] at hsingle
  rw [hls] at hflat ⊢
  refine ⟨fun hkind => absurd hkind hl, keeps_of_gather (fun m hm => ?_) (hsingle.trans ?_)⟩
  · exact text_ne_nil_of_mem (hls ▸ List.mem_cons_of_mem l hm)
  · rw [← hflat, List.flatMap_cons]
    rfl

/-- **Lexemes of one word that leave nothing open** are a closed word, if they pair their brackets
and do not end in a backslash that escapes nothing. -/
theorem of_keeps (hne : w ≠ []) (hkeeps : Nesting.flat.Keeps (lexemes w))
    (hclosed : Nesting.flat.afterAll (lexemes w) = .flat)
    (hpaired : Nesting.flat.Paired (lexemes w))
    (hlast : (lexemes w).getLast?.map Lexeme.kind ≠ some .backslash) : IsClosedWord w := by
  have hsplit : splitWords w = [⟨w, 0⟩] := by
    have h := wordsFrom_append_of_keeps (t := []) hne (by simp [lexemes]) hkeeps hclosed
      (by simp [EndsWord]) 0
    rwa [List.append_nil] at h
  exact ⟨by rw [hsplit]; rfl, hclosed, hpaired, hlast⟩

/-- **Ordinary characters are a closed word.** -/
theorem of_text (hne : w ≠ []) (hw : ∀ c ∈ w, LexemeKind.ofChar c = .text) : IsClosedWord w := by
  have hlexemes : lexemes w = [⟨.text, w⟩] := lexemes_of_run rfl hne hw
  refine of_keeps hne ?_ ?_ ?_ ?_ <;> rw [hlexemes]
  · simp [Nesting.Keeps]
  · rfl
  · simp [Nesting.Paired]
  · simp

end IsClosedWord

/-- Lexemes of one word that leave nothing open do not end in white space. -/
theorem Nesting.getLast?_of_keeps {ls : List Lexeme} (hkeeps : flat.Keeps ls)
    (hclosed : flat.afterAll ls = .flat) : ls.getLast?.map Lexeme.kind ≠ some .whitespace := by
  intro hlast
  obtain ⟨l, hl, hkind⟩ := Option.map_eq_some_iff.mp hlast
  obtain ⟨init, rfl⟩ := List.getLast?_eq_some_iff.mp hl
  have hopen := (keeps_append.mp hkeeps).2.1 hkind
  rw [afterAll_append, afterAll_cons, hkind, afterAll_nil] at hclosed
  rw [show flat.afterAll init = flat from hclosed] at hopen
  exact absurd hopen (by simp)

/-! ## Balanced texts -/

/-- **A balanced text**: it leaves nothing open, pairs its brackets, and does not end in a backslash
that escapes nothing or in white space. -/
structure IsBalanced (t : Text) : Prop where
  closed : Nesting.flat.afterAll (lexemes t) = .flat
  paired : Nesting.flat.Paired (lexemes t)
  last : (lexemes t).getLast?.map Lexeme.kind ≠ some .backslash
  solid : (lexemes t).getLast?.map Lexeme.kind ≠ some .whitespace

theorem IsClosedWord.isBalanced {w : Text} (h : IsClosedWord w) : IsBalanced w :=
  ⟨h.closed, h.paired, h.last, Nesting.getLast?_of_keeps h.keeps h.closed⟩

namespace IsBalanced

variable {s t w : Text}

/-- A balanced text ends before everything but ordinary characters. -/
theorem endsBefore (h : IsBalanced s) (ht : ∀ d ∈ t.head?, LexemeKind.ofChar d ≠ .text) :
    EndsBefore (lexemes s) t := by
  intro k hk
  have hbackslash : k ≠ .backslash := fun heq => h.last (heq ▸ hk)
  have hspace : k ≠ .whitespace := fun heq => h.solid (heq ▸ hk)
  refine ⟨hbackslash, fun hruns d hd => ?_⟩
  cases k with
  | text => exact ht d hd
  | whitespace => exact absurd rfl hspace
  | _ => exact absurd hruns (by decide)

theorem lexemes_append_space (hs : IsBalanced s) (hw : BeginsWord w) :
    lexemes (s ++ ' ' :: w) = lexemes s ++ ⟨.whitespace, [' ']⟩ :: lexemes w := by
  have hparts : Parts [' '] w := by
    obtain ⟨c, cs, rfl, hc⟩ := hw
    intro d hd e he _ heq
    obtain rfl : ' ' = d := by simpa using hd
    obtain rfl : c = e := by simpa using he
    exact hc heq.symm
  have hends : EndsBefore (lexemes s) (' ' :: w) := hs.endsBefore (by simp [LexemeKind.ofChar])
  rw [lexemes_append_of_endsBefore hends, lexemes_cons_of_ne (by decide),
    attach_lexemes_of_parts hparts]
  rfl

/-- **A closed word after a balanced text** makes a balanced text. -/
theorem append_word (hs : IsBalanced s) (hw : IsClosedWord w) : IsBalanced (s ++ ' ' :: w) := by
  have hb := hw.isBalanced
  have hlexemes := hs.lexemes_append_space hw.beginsWord
  have hlast : (lexemes (s ++ ' ' :: w)).getLast? = (lexemes w).getLast? := by
    obtain ⟨c, cs, rfl, -⟩ := hw.beginsWord
    obtain ⟨l, ls, hls⟩ := List.exists_cons_of_ne_nil (lexemes_ne_nil c cs)
    rw [hlexemes, List.getLast?_append_cons, hls, List.getLast?_cons_cons]
  refine ⟨?_, ?_, hlast ▸ hb.last, hlast ▸ hb.solid⟩
  · rw [hlexemes, Nesting.afterAll_append, hs.closed]
    exact hb.closed
  · rw [hlexemes, Nesting.paired_append, hs.closed]
    exact ⟨hs.paired, by simp, hb.paired⟩

/-! ## Bracket groups -/

theorem lexemes_bracketed (h : IsBalanced s) :
    lexemes (s ++ [']']) = lexemes s ++ [⟨.closeBracket, [']']⟩] :=
  lexemes_append_of_endsBefore (h.endsBefore (by simp [LexemeKind.ofChar]))

/-- **Between brackets a balanced text is the content.** -/
theorem content?_bracketed (h : IsBalanced s) :
    Delimiter.bracket.content? ('[' :: (s ++ [']'])) = some s := by
  have hcontent := h.paired.untilClose_append [⟨.closeBracket, [']']⟩] 0
  rw [h.closed, lexemes_flatten] at hcontent
  rw [Delimiter.content?, if_pos (by rfl), h.lexemes_bracketed]
  exact congrArg some (hcontent.trans (List.append_nil s))

/-- **Between brackets a balanced text is a closed word.** -/
theorem bracketed (h : IsBalanced s) : IsClosedWord ('[' :: (s ++ [']'])) := by
  have hlexemes : lexemes ('[' :: (s ++ [']'])) =
      ⟨.openBracket, ['[']⟩ :: (lexemes s ++ [⟨.closeBracket, [']']⟩]) := by
    rw [lexemes_cons_of_single (by decide) (by decide), h.lexemes_bracketed]
    rfl
  have hafter : (Nesting.flat.within 1).afterAll (lexemes s) = Nesting.flat.within 1 := by
    rw [h.paired.afterAll_within, h.closed]
  have hkeeps : Nesting.flat.Keeps (lexemes ('[' :: (s ++ [']']))) := by
    rw [hlexemes]
    refine ⟨by simp, Nesting.keeps_append.mpr ⟨h.paired.keeps_within 0, ?_⟩⟩
    simp [Nesting.Keeps]
  have hclosed : Nesting.flat.afterAll (lexemes ('[' :: (s ++ [']']))) = .flat := by
    rw [hlexemes, Nesting.afterAll_cons, Nesting.afterAll_append]
    exact (congrArg (Nesting.afterAll · _) hafter).trans rfl
  refine .of_keeps (by simp) hkeeps hclosed ?_ ?_
  · rw [hlexemes]
    refine ⟨by simp, Nesting.paired_append.mpr ⟨h.paired.within 1, ?_⟩⟩
    exact (congrArg (Nesting.Paired · _) hafter).mpr (by simp [Nesting.Paired, Nesting.within])
  · rw [hlexemes, ← List.cons_append, List.getLast?_append]
    simp

end IsBalanced

/-- **A closed word is read off** a text that goes on with white space. -/
theorem IsClosedWord.wordsFrom_append {w t : Text} (hw : IsClosedWord w) (ht : EndsWord t)
    (n : Nat) : wordsFrom n (w ++ t) = ⟨w, n⟩ :: wordsFrom (n + Text.byteLength w) t := by
  have hends : EndsBefore (lexemes w) t := by
    refine hw.isBalanced.endsBefore fun d hd => ?_
    simp [ht d hd]
  obtain ⟨c, cs, hc, -⟩ := hw.beginsWord
  exact wordsFrom_append_of_keeps (by simp [hc]) (lexemes_append_of_endsBefore hends) hw.keeps
    hw.closed ht n

end TclAtlas
