import TclAtlas.Proofs.Word.Boundaries
import Mathlib.Tactic.TFAE

/-!
# Proofs/Word/Tokenization — which tokens a text has

Each kind of lexeme has its texts (`LexemeKind.Matches`), and lexing takes at every place the
longest text of any kind that is there (`Lexed.isLongestAt`).  No two kinds have a text in common,
so this leaves no choice.  Nor is there one in what neighbours may be: no run is followed by one of
its kind, and a backslash that escapes nothing has a line feed after it.  So the tokens of a text
are the only list of tokens that is found by longest matches, and the only one with its text whose
tokens fit and whose neighbours do (`tokenize_tfae`).
-/

namespace TclAtlas

/-! ## Longest beginnings -/

/-- **The longest beginning** of a text with a property. -/
structure Text.LongestPrefix (P : Text → Prop) (t s : Text) : Prop where
  holds : P s
  isPrefix : s <+: t
  longest : ∀ u, P u → u <+: t → u.length ≤ s.length

theorem Text.LongestPrefix.unique {P : Text → Prop} {t s u : Text} (hs : LongestPrefix P t s)
    (hu : LongestPrefix P t u) : s = u := by
  have hlength : s.length = u.length :=
    Nat.le_antisymm (hu.longest s hs.holds hs.isPrefix) (hs.longest u hu.holds hu.isPrefix)
  exact (List.prefix_of_prefix_length_le hs.isPrefix hu.isPrefix hlength.le).eq_of_length hlength

namespace LexemeKind

/-! ## The texts of a kind -/

/-- **Which texts are of a kind**, told by their characters. -/
def Matches : LexemeKind → Text → Prop
  | whitespace, s => s ≠ [] ∧ ∀ c ∈ s, c ∈ [' ', '\t', '\r', '\n']
  | escape, s => ∃ d, d ≠ '\n' ∧ s = ['\\', d]
  | backslash, s => s = ['\\']
  | quote, s => s = ['"']
  | openBrace, s => s = ['{']
  | closeBrace, s => s = ['}']
  | openBracket, s => s = ['[']
  | closeBracket, s => s = [']']
  | text, s => s ≠ [] ∧ ∀ c ∈ s, c ∉ [' ', '\t', '\r', '\n', '{', '}', '[', ']', '"', '\\']

theorem ofChar_eq_whitespace_iff {c : Char} :
    ofChar c = whitespace ↔ c ∈ [' ', '\t', '\r', '\n'] := by
  unfold ofChar
  grind

theorem ofChar_eq_text_iff {c : Char} :
    ofChar c = text ↔ c ∉ [' ', '\t', '\r', '\n', '{', '}', '[', ']', '"', '\\'] := by
  simp only [List.mem_cons, List.not_mem_nil, or_false]
  unfold ofChar
  grind

/-- A character alone is of its own kind. -/
theorem matches_ofChar (c : Char) : (ofChar c).Matches [c] := by
  unfold ofChar
  split_ifs <;> simp_all [Matches]

end LexemeKind

namespace Lexeme

/-- **A lexeme fits its kind** when its text is of that kind. -/
theorem fits_iff {l : Lexeme} : l.Fits ↔ l.kind.Matches l.text := by
  constructor
  · rintro (hd | @⟨k, s, hk, hs, hchars⟩ | hc)
    · exact ⟨_, hd, rfl⟩
    · rcases k with _ | _ | _ | _ | _ | _ | _ | _ | _ <;> try exact absurd hk (by decide)
      · exact ⟨hs, fun c hc => LexemeKind.ofChar_eq_whitespace_iff.mp (hchars c hc)⟩
      · exact ⟨hs, fun c hc => LexemeKind.ofChar_eq_text_iff.mp (hchars c hc)⟩
    · exact LexemeKind.matches_ofChar _
  · obtain ⟨k, s⟩ := l
    intro h
    cases k with
    | whitespace =>
      exact .run rfl h.1 fun c hc => LexemeKind.ofChar_eq_whitespace_iff.mpr (h.2 c hc)
    | text => exact .run rfl h.1 fun c hc => LexemeKind.ofChar_eq_text_iff.mpr (h.2 c hc)
    | escape =>
      obtain ⟨d, hd, rfl⟩ : ∃ d, d ≠ '\n' ∧ s = ['\\', d] := h
      exact .escape hd
    | backslash => exact (show s = _ from h) ▸ fits_single '\\'
    | quote => exact (show s = _ from h) ▸ fits_single '"'
    | openBrace => exact (show s = _ from h) ▸ fits_single '{'
    | closeBrace => exact (show s = _ from h) ▸ fits_single '}'
    | openBracket => exact (show s = _ from h) ▸ fits_single '['
    | closeBracket => exact (show s = _ from h) ▸ fits_single ']'

/-- **Two kinds have no text in common.** -/
theorem Fits.kind_unique {k k' : LexemeKind} {s : Text} (h : Fits ⟨k, s⟩) (h' : Fits ⟨k', s⟩) :
    k = k' := by
  obtain ⟨c, t, rfl⟩ := List.exists_cons_of_ne_nil h.text_ne_nil
  by_cases hc : (LexemeKind.ofChar c).runs = true
  · exact (h.kind_of_head rfl hc).trans (h'.kind_of_head rfl hc).symm
  · cases h <;> cases h' <;> simp_all

/-! ## The longest match -/

/-- **The longest match** at the start of a text: a lexeme that fits its kind, where no beginning of
the text that is of any kind is longer. -/
structure IsLongestAt (l : Lexeme) (t : Text) : Prop where
  fits : l.kind.Matches l.text
  longest : Text.LongestPrefix (fun s => ∃ k : LexemeKind, k.Matches s) t l.text

/-- **There is only one longest match.** -/
theorem IsLongestAt.unique {l m : Lexeme} {t : Text} (hl : l.IsLongestAt t)
    (hm : m.IsLongestAt t) : l = m := by
  obtain ⟨k, s⟩ := l
  obtain ⟨k', s'⟩ := m
  obtain rfl : s = s' := hl.longest.unique hm.longest
  rw [(fits_iff.mpr hl.fits : Fits ⟨k, s⟩).kind_unique (fits_iff.mpr hm.fits)]

end Lexeme

/-- The first character of a text is the first one of its first lexeme. -/
theorem Lexed.exists_head {ls : List Lexeme} (h : Lexed ls) {d : Char}
    (hd : d ∈ (ls.flatMap Lexeme.text).head?) : ∃ m ∈ ls.head?, d ∈ m.text.head? := by
  rcases ls with _ | ⟨m, ls⟩
  · exact absurd hd (by simp)
  · have hm : m.text ≠ [] := (h.fits m List.mem_cons_self).text_ne_nil
    rw [List.flatMap_cons, List.head?_append_of_ne_nil _ hm] at hd
    exact ⟨m, rfl, hd⟩

/-- **Lexing takes the longest match**: a lexeme that went on would have gone on into the next
one. -/
theorem Lexed.isLongestAt {l : Lexeme} {ls : List Lexeme} (h : Lexed (l :: ls)) :
    l.IsLongestAt (l.text ++ ls.flatMap Lexeme.text) := by
  obtain ⟨hl, hhead, hls⟩ := h.of_cons
  have hkind := Lexeme.fits_iff.mp hl
  refine ⟨hkind, ⟨l.kind, hkind⟩, List.prefix_append .., fun s ⟨k, hs⟩ hprefix => ?_⟩
  by_contra hlonger
  obtain ⟨u, rfl⟩ : l.text <+: s :=
    List.prefix_of_prefix_length_le (List.prefix_append ..) hprefix (by omega)
  obtain ⟨d, u, rfl⟩ : ∃ d u', u = d :: u' :=
    List.exists_cons_of_ne_nil (by rintro rfl; simp at hlonger)
  -- the text would go on with the first character of the next lexeme
  obtain ⟨after, hafter⟩ := (List.prefix_append_right_inj l.text).mp hprefix
  obtain ⟨m, hm, hd⟩ : ∃ m ∈ ls.head?, d ∈ m.text.head? := hls.exists_head (hafter ▸ rfl)
  obtain ⟨c, t, hc⟩ := List.exists_cons_of_ne_nil hl.text_ne_nil
  have hfits : Lexeme.Fits ⟨k, l.text ++ d :: u⟩ := Lexeme.fits_iff.mpr hs
  rw [hc, List.cons_append] at hfits
  generalize hlong : (⟨k, c :: (t ++ d :: u)⟩ : Lexeme) = long at hfits
  cases hfits with
  | @escape e he =>
    -- the lexeme is a backslash alone, and what comes after it is a line feed
    obtain ⟨rfl, hend⟩ : c = '\\' ∧ t ++ d :: u = [e] :=
      List.cons.inj (Lexeme.mk.inj hlong).2
    obtain ⟨rfl, hde⟩ : t = [] ∧ d :: u = [e] :=
      (List.append_eq_singleton_iff.mp hend).resolve_right (by simp)
    obtain ⟨rfl, -⟩ := List.cons.inj hde
    obtain ⟨kind, text⟩ := l
    obtain rfl : text = ['\\'] := hc
    have hkind : kind = .backslash := hl.kind_unique (Lexeme.fits_single '\\')
    exact he (Option.some.inj (hd.symm.trans ((hhead m hm).2 hkind)))
  | @run k' s hk hne hchars =>
    obtain ⟨rfl, rfl⟩ := Lexeme.mk.inj hlong
    have hck : LexemeKind.ofChar c = k := hchars c List.mem_cons_self
    have hdk : LexemeKind.ofChar d = k := hchars d (by simp)
    have hlk : l.kind = k := (hl.kind_of_head (by simp [hc]) (hck ▸ hk)).trans hck
    have hmk : m.kind = k :=
      ((hls.fits m (List.mem_of_head? hm)).kind_of_head hd (hdk ▸ hk)).trans hdk
    exact (hhead m hm).1 (hlk ▸ hk) (hmk.trans hlk.symm)
  | @single e he =>
    obtain ⟨-, hs⟩ := Lexeme.mk.inj hlong
    simp at hs

/-- **Tokens found by longest matches**, one after the other from a byte position on. -/
inductive LongestMatches : Nat → Text → List Token → Prop
  | nil (n : Nat) : LongestMatches n [] []
  | cons {n : Nat} {l : Lexeme} {rest : Text} {ts : List Token} :
    l.IsLongestAt (l.text ++ rest) → LongestMatches (n + Text.byteLength l.text) rest ts →
      LongestMatches n (l.text ++ rest) ({ l with start := n } :: ts)

theorem Lexed.longestMatches : ∀ {ls : List Lexeme} (n : Nat), Lexed ls →
    LongestMatches n (ls.flatMap Lexeme.text) (Token.layout n ls)
  | [], n, _ => .nil n
  | _ :: _, _, h => .cons h.isLongestAt (h.of_cons.2.2.longestMatches _)

/-- **There is one way only** to take longest matches. -/
theorem LongestMatches.eq_layout {n : Nat} {t : Text} {ts : List Token}
    (h : LongestMatches n t ts) : ts = Token.layout n (lexemes t) := by
  induction h with
  | nil n => rfl
  | @cons n l rest ts hlongest _ ih =>
    have hne : l.text ++ rest ≠ [] :=
      List.append_ne_nil_of_left_ne_nil (Lexeme.fits_iff.mpr hlongest.fits).text_ne_nil rest
    obtain ⟨m, ms, hms⟩ : ∃ m ms, lexemes (l.text ++ rest) = m :: ms := by
      obtain ⟨c, t, ht⟩ := List.exists_cons_of_ne_nil hne
      exact ht ▸ List.exists_cons_of_ne_nil (lexemes_ne_nil c t)
    have hflat : m.text ++ ms.flatMap Lexeme.text = l.text ++ rest := by
      rw [← lexemes_flatten (l.text ++ rest), hms, List.flatMap_cons]
    have hlexed : Lexed (m :: ms) := hms ▸ lexed_lexemes _
    obtain rfl : m = l := (hflat ▸ hlexed.isLongestAt).unique hlongest
    have hrest : lexemes rest = ms := by
      rw [← List.append_cancel_left hflat, hlexed.of_cons.2.2.lexemes_flatMap]
    rw [hms, ih, hrest]
    rfl

/-! ## The tokens of a text -/

/-- **A list of tokens that cuts up a text**: their texts make up the text, each starts after the
bytes of those before it and fits its kind, and no token would go on into the next one. -/
structure Tokenizes (ts : List Token) (t : Text) : Prop where
  texts : ts.flatMap (·.text) = t
  starts : ∀ before tok after, ts = before ++ tok :: after →
    tok.start = Text.byteLength (before.flatMap (·.text))
  fits : ∀ tok ∈ ts, tok.kind.Matches tok.text
  runs : ts.IsChain fun a b => ¬(a.kind = .whitespace ∧ b.kind = .whitespace) ∧
    ¬(a.kind = .text ∧ b.kind = .text)
  backslashes : ts.IsChain fun a b =>
    a.kind = .backslash → b.kind = .whitespace ∧ b.text.head? = some '\n'

/-- **Tokens are laid out** when each starts after the bytes of those before it. -/
theorem Token.eq_layout_iff : ∀ {ts : List Token} {n : Nat},
    ts = layout n (ts.map toLexeme) ↔ ∀ before tok after, ts = before ++ tok :: after →
      tok.start = n + Text.byteLength (before.flatMap (·.text))
  | [], n => by simp [layout]
  | tok :: ts, n => by
    rw [List.map_cons, layout, List.cons.injEq, eq_layout_iff]
    constructor
    · rintro ⟨hstart, hrest⟩ before tok' after h
      rcases List.cons_eq_append_iff.mp h with ⟨rfl, h⟩ | ⟨before, rfl, h⟩
      · obtain ⟨rfl, -⟩ := List.cons.inj h
        simpa using congrArg start hstart
      · rw [hrest before tok' after (List.cons.inj h).2, List.flatMap_cons,
          Text.byteLength_append, Nat.add_assoc]
    · intro h
      refine ⟨?_, fun before tok' after hts => ?_⟩
      · have hstart : tok.start = n := h [] tok ts rfl
        rw [← hstart]
      · rw [h (tok :: before) tok' after (by rw [hts, List.cons_append]), List.flatMap_cons,
          Text.byteLength_append, Nat.add_assoc]

theorem flatMap_text_map_toLexeme (ts : List Token) :
    (ts.map Token.toLexeme).flatMap Lexeme.text = ts.flatMap (·.text) := List.flatMap_map ..

/-- **Lexing yields tokens that cut up the text.** -/
theorem tokenizes_tokenize (t : Text) : Tokenizes (tokenize t) t := by
  have hlexemes : (tokenize t).map Token.toLexeme = lexemes t := Token.layout_map_toLexeme ..
  have hlexed := lexed_lexemes t
  rw [← hlexemes] at hlexed
  have hneighbours : ∀ {a b : Token} {before after : List Token},
      tokenize t = before ++ a :: b :: after →
        a.toLexeme.Precedes b.toLexeme ∧ b.toLexeme.Fits := by
    intro a b before after h
    rw [h, List.map_append, List.map_cons, List.map_cons] at hlexed
    obtain ⟨-, hhead, hrest⟩ := hlexed.right.of_cons
    exact ⟨hhead _ rfl, hrest.of_cons.1⟩
  refine ⟨?_, fun before tok after h => ?_, fun tok htok => ?_,
    List.isChain_iff_forall_rel_of_append_cons_cons.mpr fun a b before after h => ?_,
    List.isChain_iff_forall_rel_of_append_cons_cons.mpr fun a b before after h => ?_⟩
  · rw [← flatMap_text_map_toLexeme, hlexemes, lexemes_flatten]
  · have hlayout : tokenize t = Token.layout 0 ((tokenize t).map Token.toLexeme) := by
      rw [hlexemes]
      rfl
    rw [Token.eq_layout_iff.mp hlayout before tok after h, Nat.zero_add]
  · exact Lexeme.fits_iff.mp (hlexed.fits _ (List.mem_map_of_mem htok))
  · obtain ⟨⟨hrun, -⟩, -⟩ := hneighbours h
    constructor <;> rintro ⟨ha, hb⟩ <;> exact hrun (by rw [ha]; rfl) (hb.trans ha.symm)
  · intro ha
    obtain ⟨⟨-, hslash⟩, hfits⟩ := hneighbours h
    exact ⟨hfits.kind_of_head (hslash ha) rfl, hslash ha⟩

/-- **Only the tokens of a text cut it up.** -/
theorem Tokenizes.eq_tokenize {ts : List Token} {t : Text} (h : Tokenizes ts t) :
    ts = tokenize t := by
  have hlexed : Lexed (ts.map Token.toLexeme) := by
    refine ⟨fun l hl => ?_, (List.isChain_map _).mpr ?_⟩
    · obtain ⟨tok, htok, rfl⟩ := List.mem_map.mp hl
      exact Lexeme.fits_iff.mpr (h.fits tok htok)
    · refine List.isChain_iff_forall_rel_of_append_cons_cons.mpr fun a b before after hts => ?_
      have hruns := List.isChain_iff_forall_rel_of_append_cons_cons.mp h.runs hts
      have hslash := List.isChain_iff_forall_rel_of_append_cons_cons.mp h.backslashes hts
      refine ⟨fun hrun hkind => ?_, fun ha => (hslash ha).2⟩
      rcases ha : a.kind <;> rw [ha] at hrun hkind <;> first
        | exact hruns.1 ⟨ha, hkind⟩
        | exact hruns.2 ⟨ha, hkind⟩
        | exact absurd hrun (by decide)
  have hlexemes : lexemes t = ts.map Token.toLexeme := by
    rw [← hlexed.lexemes_flatMap, flatMap_text_map_toLexeme, h.texts]
  rw [tokenize, hlexemes]
  exact Token.eq_layout_iff.mpr fun before tok after hts => by
    rw [h.starts before tok after hts, Nat.zero_add]

/-- **A token ends within its text.** -/
theorem finish_le_of_mem_tokenize {t : Text} {tok : Token} (h : tok ∈ tokenize t) :
    tok.finish ≤ Text.byteLength t := by
  obtain ⟨before, after, hsplit⟩ := List.append_of_mem h
  have htokens := tokenizes_tokenize t
  rw [Token.finish, htokens.starts before tok after hsplit, ← htokens.texts, hsplit]
  simp only [List.flatMap_append, List.flatMap_cons, Text.byteLength_append]
  omega

/-- **The tokens of a text.**  They are found by longest matches, whatever finds these, and they are
the one and only list of tokens that cuts up the text. -/
theorem tokenize_tfae (t : Text) (ts : List Token) :
    List.TFAE [ts = tokenize t, LongestMatches 0 t ts, Tokenizes ts t] := by
  tfae_have 1 → 2 := by
    rintro rfl
    have hlongest := (lexed_lexemes t).longestMatches 0
    rwa [lexemes_flatten] at hlongest
  tfae_have 2 → 1 := LongestMatches.eq_layout
  tfae_have 1 → 3 := fun h => h ▸ tokenizes_tokenize t
  tfae_have 3 → 1 := Tokenizes.eq_tokenize
  tfae_finish

end TclAtlas
