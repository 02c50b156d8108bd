import TclAtlas.Proofs.Text.Backslashes
import TclAtlas.Proofs.Word.Names
import TclAtlas.Proofs.Word.Tokenization
import TclAtlas.Reference
import Mathlib.Algebra.Group.Even
import Mathlib.Algebra.Ring.Parity

/-!
# Proofs/Reference/Occurrences — where a line substitutes variables

A dollar sign substitutes a variable when it is not escaped and a name follows it.  Neither depends
on how the line is lexed: a dollar sign is escaped by an odd number of backslashes before it, and a
name goes on for as long as its characters do, which are ordinary ones, so that no lexeme ends
within it (`leadingName_append`).  So each lexeme has the references of the line that are found at
its own dollar signs (`mem_ofToken_iff`), and the references of the line are found at just the
dollar signs that substitute a variable, one after the other (`references_exact`).
-/

namespace TclAtlas

open Continuation (goesOn)

/-! ## Names after a dollar sign -/

namespace Reference

/-- What may stand before the unanchored part of a name. -/
def IsAnchor (anchor : Text) : Prop := anchor = [] ∨ anchor = [':', ':']

/-- **The name of a reference**: an optional root anchor, then a letter or underscore, then
characters of names. -/
def IsName (n : Text) : Prop :=
  ∃ anchor c t, n = anchor ++ c :: t ∧ IsAnchor anchor ∧ Text.isNameStart c = true ∧
    ∀ d ∈ t, Text.isSymbolChar d = true

/-- **A name starts a text**: an optional root anchor, then a letter or underscore. -/
def NameStarts (t : Text) : Prop :=
  ∃ anchor c u, t = anchor ++ c :: u ∧ IsAnchor anchor ∧ Text.isNameStart c = true

theorem ne_colon_of_isNameStart {c : Char} (hc : Text.isNameStart c = true) : c ≠ ':' := by
  rintro rfl
  exact absurd hc (by decide)

/-- **The name at the start of a text** goes on as far as characters of names do. -/
theorem leadingName_eq {anchor : Text} (hanchor : IsAnchor anchor) {c : Char}
    (hc : Text.isNameStart c = true) (u : Text) :
    leadingName (anchor ++ c :: u) = anchor ++ c :: u.takeWhile Text.isSymbolChar := by
  have hplain : plainName (c :: u) = c :: u.takeWhile Text.isSymbolChar := if_pos hc
  rcases hanchor with rfl | rfl
  · rw [List.nil_append, leadingName.eq_def]
    split
    · next h => exact absurd (List.cons.inj h).1 (ne_colon_of_isNameStart hc)
    · exact hplain
  · change leadingName (':' :: ':' :: c :: u) = _
    rw [leadingName, hplain]
    rfl

theorem nameStarts_of_leadingName {t : Text} (h : leadingName t ≠ []) : NameStarts t := by
  have hplain : ∀ u, plainName u ≠ [] → ∃ c v, u = c :: v ∧ Text.isNameStart c = true := by
    rintro (_ | ⟨c, v⟩) hu
    · exact absurd rfl hu
    · refine ⟨c, v, rfl, ?_⟩
      by_contra hc
      exact hu (if_neg hc)
  rw [leadingName.eq_def] at h
  split at h
  · next u =>
    obtain ⟨c, v, rfl, hc⟩ := hplain u fun hu => h (by rw [hu])
    exact ⟨_, c, v, rfl, .inr rfl, hc⟩
  · obtain ⟨c, v, rfl, hc⟩ := hplain t h
    exact ⟨[], c, v, rfl, .inl rfl, hc⟩

/-- **A name is found at the start of a text** when one starts it. -/
theorem leadingName_ne_nil_iff {t : Text} : leadingName t ≠ [] ↔ NameStarts t := by
  refine ⟨nameStarts_of_leadingName, ?_⟩
  rintro ⟨anchor, c, u, rfl, hanchor, hc⟩
  rw [leadingName_eq hanchor hc]
  simp

/-- Two names that start one text have their anchors in common. -/
theorem anchor_unique {a b : Text} (ha : IsAnchor a) (hb : IsAnchor b) {c d : Char}
    (hc : Text.isNameStart c = true) (hd : Text.isNameStart d = true) {t u : Text}
    (h : a ++ c :: t = b ++ d :: u) : a = b := by
  rcases ha with rfl | rfl <;> rcases hb with rfl | rfl
  · rfl
  · exact absurd (List.cons.inj h).1 (ne_colon_of_isNameStart hc)
  · exact absurd (List.cons.inj h).1.symm (ne_colon_of_isNameStart hd)
  · rfl

/-- **The name found is the longest one there is.** -/
theorem longestPrefix_leadingName {t : Text} (h : NameStarts t) :
    Text.LongestPrefix IsName t (leadingName t) := by
  obtain ⟨anchor, c, u, rfl, hanchor, hc⟩ := h
  rw [leadingName_eq hanchor hc]
  refine ⟨⟨anchor, c, _, rfl, hanchor, hc, fun d hd => List.mem_takeWhile_imp hd⟩, ?_, ?_⟩
  · exact (List.prefix_append_right_inj anchor).mpr
      ((List.prefix_cons_inj c).mpr (List.takeWhile_prefix _))
  · rintro _ ⟨anchor', c', v, rfl, hanchor', hc', hv⟩ ⟨after, hafter⟩
    rw [List.append_assoc, List.cons_append] at hafter
    obtain rfl := anchor_unique hanchor' hanchor hc' hc hafter
    obtain ⟨rfl, hu⟩ := List.cons.inj (List.append_cancel_left hafter)
    have hlength : v.length ≤ (u.takeWhile Text.isSymbolChar).length := by
      rw [← hu, List.takeWhile_append_of_pos hv, List.length_append]
      exact Nat.le_add_right _ _
    simpa using hlength

theorem longestPrefix_iff {t n : Text} :
    Text.LongestPrefix IsName t n ↔ leadingName t ≠ [] ∧ leadingName t = n := by
  constructor
  · intro h
    have hstarts : NameStarts t := by
      obtain ⟨anchor, c, u, rfl, hanchor, hc, -⟩ := h.holds
      obtain ⟨after, rfl⟩ := h.isPrefix
      exact ⟨anchor, c, u ++ after, by simp, hanchor, hc⟩
    exact ⟨leadingName_ne_nil_iff.mpr hstarts, (longestPrefix_leadingName hstarts).unique h⟩
  · rintro ⟨h, rfl⟩
    exact longestPrefix_leadingName (leadingName_ne_nil_iff.mp h)

/-- A dollar sign is in no name. -/
theorem dollar_not_mem_leadingName (t : Text) : '$' ∉ leadingName t := by
  intro hmem
  obtain ⟨anchor, c, u, hname, hanchor, hc, hu⟩ :=
    (longestPrefix_iff.mpr ⟨List.ne_nil_of_mem hmem, rfl⟩).holds
  rw [hname, List.mem_append, List.mem_cons] at hmem
  rcases hmem with hmem | rfl | hmem
  · rcases hanchor with rfl | rfl <;> exact absurd hmem (by decide)
  · exact absurd hc (by decide)
  · exact absurd (hu _ hmem) (by decide)

theorem leadingName_isPrefix (t : Text) : leadingName t <+: t := by
  by_cases h : leadingName t = []
  · rw [h]
    exact List.nil_prefix
  · exact (longestPrefix_iff.mpr ⟨h, rfl⟩).isPrefix

/-! ### What follows a run -/

theorem isSymbolChar_of_isNameStart {c : Char} (hc : Text.isNameStart c = true) :
    Text.isSymbolChar c = true := by
  simp [Text.isSymbolChar, Text.isNameChar_of_isNameStart hc]

section

variable {t : Text} (ht : ∀ d ∈ t.head?, Text.isSymbolChar d = false)

include ht

/-- A name does not start in one text and go on in another that begins otherwise. -/
theorem nameStarts_append {s : Text} : NameStarts (s ++ t) ↔ NameStarts s := by
  constructor
  · rintro ⟨anchor, c, u, h, hanchor, hc⟩
    have hsymbols : ∀ d ∈ anchor ++ [c], Text.isSymbolChar d = true := by
      intro d hd
      rcases List.mem_append.mp hd with hd | hd
      · rcases hanchor with rfl | rfl
        · exact absurd hd List.not_mem_nil
        · obtain rfl : d = ':' := by simpa using hd
          rfl
      · exact List.mem_singleton.mp hd ▸ isSymbolChar_of_isNameStart hc
    have hsplit : s ++ t = (anchor ++ [c]) ++ u := by simpa using h
    rcases List.append_eq_append_iff.mp hsplit with ⟨v, hv, rfl⟩ | ⟨v, rfl, -⟩
    · rcases v with _ | ⟨d, v⟩
      · exact ⟨anchor, c, [], by simpa using hv.symm, hanchor, hc⟩
      · have hd := hsymbols d (hv ▸ by simp)
        exact absurd hd (by simp [ht d rfl])
    · exact ⟨anchor, c, v, by simp, hanchor, hc⟩
  · rintro ⟨anchor, c, u, rfl, hanchor, hc⟩
    exact ⟨anchor, c, u ++ t, by simp, hanchor, hc⟩

/-- **A name ends where no character of names follows.** -/
theorem leadingName_append (s : Text) : leadingName (s ++ t) = leadingName s := by
  by_cases h : NameStarts s
  · obtain ⟨anchor, c, u, rfl, hanchor, hc⟩ := h
    have hnone : t.takeWhile Text.isSymbolChar = [] := by
      rcases t with _ | ⟨d, t⟩
      · rfl
      · exact List.takeWhile_cons_of_neg (by simp [ht d rfl])
    rw [List.append_assoc, List.cons_append, leadingName_eq hanchor hc, leadingName_eq hanchor hc,
      List.takeWhile_append, hnone, List.append_nil]
    split
    · next hall => rw [(List.takeWhile_prefix _).eq_of_length hall]
    · rfl
  · have hnone : ∀ {v : Text}, ¬NameStarts v → leadingName v = [] := fun hv =>
      not_not.mp (mt leadingName_ne_nil_iff.mp hv)
    rw [hnone h, hnone (mt (nameStarts_append ht).mp h)]

end

/-! ## References of a run -/

/-- The search passes over what has no dollar sign. -/
theorem inRun_append {s : Text} (hs : '$' ∉ s) (n : Nat) (t : Text) :
    inRun n (s ++ t) = inRun (n + Text.byteLength s) t := by
  induction s generalizing n with
  | nil => rfl
  | cons c s ih =>
    obtain ⟨hc, hs⟩ : '$' ≠ c ∧ '$' ∉ s := by simpa using hs
    rw [List.cons_append, inRun, if_neg (Ne.symm hc), ih hs, Text.byteLength_cons, Nat.add_assoc]

/-- The first reference of a run, if a name is behind the dollar sign, and those after it. -/
theorem inRun_append_dollar {before name after : Text} (h : '$' ∉ before)
    (hname : leadingName (name ++ after) = name) (n : Nat) :
    inRun n (before ++ '$' :: (name ++ after)) =
      (if name = [] then [] else [⟨name, n + Text.byteLength before⟩]) ++
        inRun (n + Text.byteLength (before ++ '$' :: name)) after := by
  have hlength : n + Text.byteLength before + 1 + Text.byteLength name =
      n + Text.byteLength (before ++ '$' :: name) := by
    have hdollar : '$'.utf8Size = 1 := rfl
    rw [Text.byteLength_append, Text.byteLength_cons, hdollar]
    omega
  rw [inRun_append h, inRun, if_pos rfl]
  simp only [hname, List.drop_left, hlength]
  split <;> rfl

/-- **A search that goes on behind the name misses nothing**, as no name has a dollar sign. -/
theorem mem_inRun_cons {r : Reference} {n : Nat} {c : Char} {t : Text} :
    r ∈ inRun n (c :: t) ↔ (c = '$' ∧ leadingName t ≠ [] ∧ r = ⟨leadingName t, n⟩) ∨
      r ∈ inRun (n + c.utf8Size) t := by
  by_cases hc : c = '$'
  · subst hc
    have hbehind : inRun (n + '$'.utf8Size) t =
        inRun (n + 1 + Text.byteLength (leadingName t)) (t.drop (leadingName t).length) := by
      obtain ⟨rest, hrest⟩ := leadingName_isPrefix t
      have hdrop : t.drop (leadingName t).length = rest :=
        (congrArg (List.drop _) hrest.symm).trans List.drop_left
      rw [hdrop]
      exact (congrArg (inRun _) hrest.symm).trans
        (inRun_append (dollar_not_mem_leadingName t) _ rest)
    rw [hbehind, inRun, if_pos rfl]
    by_cases hname : leadingName t = []
    · simp [hname]
    · simp [hname]
  · rw [inRun, if_neg hc]
    simp [hc]

/-- **The references of a run** are found at its dollar signs. -/
theorem mem_inRun_iff {r : Reference} : ∀ {s : Text} {n : Nat}, r ∈ inRun n s ↔
    ∃ before after, s = before ++ '$' :: after ∧ leadingName after ≠ [] ∧
      r = ⟨leadingName after, n + Text.byteLength before⟩
  | [], n => by simp [inRun]
  | c :: t, n => by
    rw [mem_inRun_cons, mem_inRun_iff]
    constructor
    · rintro (⟨rfl, hname, rfl⟩ | ⟨before, after, rfl, hname, rfl⟩)
      · exact ⟨[], t, rfl, hname, rfl⟩
      · exact ⟨c :: before, after, rfl, hname, by rw [Text.byteLength_cons, Nat.add_assoc]⟩
    · rintro ⟨before, after, h, hname, rfl⟩
      rcases before with _ | ⟨d, before⟩
      · obtain ⟨rfl, rfl⟩ := List.cons.inj h
        exact .inl ⟨rfl, hname, rfl⟩
      · obtain ⟨rfl, rfl⟩ := List.cons.inj h
        exact .inr ⟨before, after, rfl, hname, by rw [Text.byteLength_cons, Nat.add_assoc]⟩

/-- The references of a run lie within it. -/
theorem bounds_of_mem_inRun {r : Reference} {n : Nat} {s : Text} (h : r ∈ inRun n s) :
    n ≤ r.start ∧ r.finish ≤ n + Text.byteLength s := by
  obtain ⟨before, after, rfl, -, rfl⟩ := mem_inRun_iff.mp h
  obtain ⟨rest, hrest⟩ := leadingName_isPrefix after
  have hlength := congrArg Text.byteLength hrest
  have hdollar : '$'.utf8Size = 1 := rfl
  simp only [finish, Text.byteLength_append, Text.byteLength_cons] at hlength ⊢
  omega

/-- **The references of a run come one after the other.** -/
theorem pairwise_inRun (n : Nat) (s : Text) :
    (inRun n s).Pairwise fun r r' => r.finish ≤ r'.start := by
  fun_induction inRun n s with
  | case1 n => exact .nil
  | case2 n t name later hname ih => exact ih
  | case3 n t name later hname ih =>
    exact List.pairwise_cons.mpr ⟨fun r hr => (bounds_of_mem_inRun hr).1, ih⟩
  | case4 n c t hc ih => exact ih

/-! ## References of a line -/

/-- The references of one token. -/
def ofToken (t : Token) : List Reference := if t.kind = .text then inRun t.start t.text else []

/-- **A reference is found** in a text that starts at a byte position: a name comes after a dollar
sign that is not escaped. -/
def FoundFrom (n : Nat) (t : Text) (r : Reference) : Prop :=
  ∃ before after, t = before ++ '$' :: after ∧ goesOn before = false ∧ leadingName after ≠ [] ∧
    r = ⟨leadingName after, n + Text.byteLength before⟩

theorem ofChar_of_isSymbolChar {c : Char} (hc : Text.isSymbolChar c = true) :
    LexemeKind.ofChar c = .text := by
  simp only [Text.isSymbolChar, Bool.or_eq_true, beq_iff_eq] at hc
  rcases hc with (hc | rfl) | rfl
  · exact Text.ofChar_of_isNameChar hc
  · rfl
  · rfl

/-- A lexeme before a dollar sign does not change whether this is escaped. -/
theorem goesOn_lexeme {l : Lexeme} (hl : l.Fits) {b after : Text}
    (hslash : l.kind = .backslash → ∀ d ∈ (b ++ '$' :: after).head?, d = '\n') :
    goesOn (l.text ++ b) = goesOn b := by
  cases hl with
  | escape hd => exact Continuation.goesOn_escape _ b
  | @run k s hk hs hchars =>
    refine Continuation.goesOn_append (fun hlast => ?_) b
    obtain rfl : LexemeKind.backslash = k := hchars _ (List.mem_of_getLast? hlast)
    exact absurd hk (by decide)
  | @single c hc =>
    by_cases hback : c = '\\'
    · subst hback
      -- the backslash stands before a line feed, which is not the dollar sign
      rcases b with _ | ⟨d, b⟩
      · exact absurd (hslash rfl '$' rfl) (by decide)
      · obtain rfl : d = '\n' := hslash rfl d rfl
        exact (Continuation.goesOn_escape _ b).trans
          (Continuation.goesOn_append (s := ['\n']) (by simp) b).symm
    · exact Continuation.goesOn_append (by simpa using hback) b

section

variable {r : Reference} {n : Nat} {l : Lexeme} (hl : l.Fits) {u : Text}
  (hends : l.kind = .text → ∀ d ∈ u.head?, Text.isSymbolChar d = false)

include hl hends

/-- **The references of a token** are those found at its dollar signs, in the text as a whole. -/
theorem mem_ofToken_iff : r ∈ ofToken { l with start := n } ↔
    ∃ before a, l.text = before ++ '$' :: a ∧ goesOn before = false ∧ leadingName (a ++ u) ≠ [] ∧
      r = ⟨leadingName (a ++ u), n + Text.byteLength before⟩ := by
  by_cases hkind : l.kind = .text
  · have hchars : '\\' ∉ l.text := by
      intro hmem
      have hmatches := hkind ▸ Lexeme.fits_iff.mp hl
      exact absurd (hmatches.2 _ hmem) (by decide)
    have hplain : ∀ {before a : Text}, l.text = before ++ '$' :: a → goesOn before = false :=
      fun h => Continuation.goesOn_of_getLast? fun hlast =>
        hchars (h ▸ List.mem_append_left _ (List.mem_of_getLast? hlast))
    rw [ofToken, if_pos hkind, mem_inRun_iff]
    simp only [leadingName_append (hends hkind)]
    exact ⟨fun ⟨before, a, h, hname, hr⟩ => ⟨before, a, h, hplain h, hname, hr⟩,
      fun ⟨before, a, h, _, hname, hr⟩ => ⟨before, a, h, hname, hr⟩⟩
  · rw [ofToken, if_neg hkind]
    refine iff_of_false List.not_mem_nil ?_
    rintro ⟨before, a, h, hbefore, -⟩
    have hdollar : '$' ∈ l.text := h ▸ List.mem_append_right before List.mem_cons_self
    cases hl with
    | @escape d hd =>
      rcases before with _ | ⟨c, _ | ⟨c', before⟩⟩
      · exact absurd (List.cons.inj h).1 (by decide)
      · obtain rfl : '\\' = c := (List.cons.inj h).1
        exact absurd hbefore (by decide)
      · simp at h
    | run hk hs hchars => exact hkind (hchars '$' hdollar).symm
    | @single c hc =>
      obtain rfl : '$' = c := List.mem_singleton.mp hdollar
      exact absurd hc (by decide)

/-- **What is found** is found in the first lexeme or after it. -/
theorem foundFrom_append (hslash : l.kind = .backslash → ∀ d ∈ u.head?, d = '\n') :
    FoundFrom n (l.text ++ u) r ↔
      r ∈ ofToken { l with start := n } ∨ FoundFrom (n + Text.byteLength l.text) u r := by
  rw [mem_ofToken_iff hl hends]
  constructor
  · rintro ⟨before, after, h, hbefore, hname, rfl⟩
    rcases List.append_eq_append_iff.mp h with ⟨b, rfl, rfl⟩ | ⟨b, hb, hafter⟩
    · rw [goesOn_lexeme hl hslash] at hbefore
      exact .inr ⟨b, after, rfl, hbefore, hname, by rw [Text.byteLength_append, Nat.add_assoc]⟩
    · rcases b with _ | ⟨c, a⟩
      · obtain rfl : before = l.text := by simpa using hb.symm
        exact .inr ⟨[], after, hafter.symm, rfl, hname, rfl⟩
      · obtain ⟨rfl, rfl⟩ := List.cons.inj hafter
        exact .inl ⟨before, a, hb, hbefore, hname, rfl⟩
  · rintro (⟨before, a, h, hbefore, hname, rfl⟩ | ⟨b, after, rfl, hb, hname, rfl⟩)
    · exact ⟨before, a ++ u, by rw [h, List.append_assoc, List.cons_append], hbefore, hname, rfl⟩
    · exact ⟨l.text ++ b, after, by rw [List.append_assoc], by rwa [goesOn_lexeme hl hslash], hname,
        by rw [Text.byteLength_append, Nat.add_assoc]⟩

end

/-- **The references of tokens laid out in a row** are found in their text. -/
theorem mem_layout_iff {r : Reference} : ∀ {ls : List Lexeme} {n : Nat}, Lexed ls →
    (r ∈ (Token.layout n ls).flatMap ofToken ↔ FoundFrom n (ls.flatMap Lexeme.text) r)
  | [], n, _ => by simp [Token.layout, FoundFrom]
  | l :: ls, n, h => by
    obtain ⟨hl, hhead, hls⟩ := h.of_cons
    rw [Token.layout, List.flatMap_cons, List.mem_append, mem_layout_iff hls, List.flatMap_cons,
      foundFrom_append hl]
    · intro hkind d hd
      obtain ⟨m, hm, hd⟩ := hls.exists_head hd
      by_contra hsymbol
      have htext := ofChar_of_isSymbolChar (by simpa using hsymbol)
      have hmkind := (hls.fits m (List.mem_of_head? hm)).kind_of_head hd (by rw [htext]; rfl)
      exact (hhead m hm).1 (by rw [hkind]; rfl) (hmkind.trans (htext.trans hkind.symm))
    · intro hkind d hd
      obtain ⟨m, hm, hd⟩ := hls.exists_head hd
      exact Option.some.inj (hd.symm.trans ((hhead m hm).2 hkind))

theorem mem_references_iff {r : Reference} {line : Text} :
    r ∈ references line ↔ FoundFrom 0 line r := by
  have h := mem_layout_iff (r := r) (n := 0) (lexed_lexemes line)
  rwa [lexemes_flatten] at h

/-- The references of a token lie within it. -/
theorem bounds_of_mem_ofToken {r : Reference} {t : Token} (h : r ∈ ofToken t) :
    t.start ≤ r.start ∧ r.finish ≤ t.finish := by
  rw [ofToken] at h
  split at h
  · exact bounds_of_mem_inRun h
  · exact absurd h List.not_mem_nil

/-- **The references of tokens laid out in a row** come one after the other. -/
theorem pairwise_layout : ∀ (n : Nat) (ls : List Lexeme),
    (∀ r ∈ (Token.layout n ls).flatMap ofToken, n ≤ r.start) ∧
      ((Token.layout n ls).flatMap ofToken).Pairwise fun r r' => r.finish ≤ r'.start
  | n, [] => by simp [Token.layout]
  | n, l :: ls => by
    obtain ⟨hstart, hrest⟩ := pairwise_layout (n + Text.byteLength l.text) ls
    simp only [Token.layout, List.flatMap_cons, List.mem_append, List.pairwise_append]
    refine ⟨?_, ?_, hrest, fun r hr r' hr' => ?_⟩
    · rintro r (hr | hr)
      · exact (bounds_of_mem_ofToken hr).1
      · exact le_trans (Nat.le_add_right ..) (hstart r hr)
    · rw [ofToken]
      split
      · exact pairwise_inRun n l.text
      · exact .nil
    · exact (bounds_of_mem_ofToken hr).2.trans (hstart r' hr')

end Reference

/-! ## Dollar signs that are not escaped -/

/-- **A dollar sign at a byte position** that an even number of backslashes precedes, with the text
after it. -/
def Text.DollarAt (line : Text) (p : Nat) (after : Text) : Prop :=
  ∃ before, line = before ++ '$' :: after ∧ Text.byteLength before = p ∧
    Even (before.rtakeWhile (· == '\\')).length

theorem Continuation.goesOn_eq_false_iff {t : Text} :
    goesOn t = false ↔ Even (t.rtakeWhile (· == '\\')).length := by
  rw [List.rtakeWhile, List.length_reverse, Nat.even_iff, goesOn, beq_eq_false_iff_ne]
  omega

theorem Reference.mem_references_iff_dollarAt {r : Reference} {line : Text} :
    r ∈ references line ↔
      ∃ after, line.DollarAt r.start after ∧ Text.LongestPrefix IsName after r.name := by
  simp only [mem_references_iff, FoundFrom, Text.DollarAt, longestPrefix_iff,
    Continuation.goesOn_eq_false_iff, Nat.zero_add]
  constructor
  · rintro ⟨before, after, rfl, hbefore, hname, rfl⟩
    exact ⟨after, ⟨before, rfl, rfl, hbefore⟩, hname, rfl⟩
  · rintro ⟨after, ⟨before, rfl, hstart, hbefore⟩, hname, hr⟩
    exact ⟨before, after, rfl, hbefore, hname, by rw [hr, hstart]⟩

open Reference in
/-- **The references of a line** are at just the dollar signs that are not escaped and have a name
after them.  Each has the longest name there is, and reaches from the dollar sign to the end of the
name; they come in order, do not overlap and are there once each. -/
theorem references_exact (line : Text) :
    (∀ p, (∃ r ∈ references line, r.start = p) ↔ ∃ after, line.DollarAt p after ∧ NameStarts after) ∧
      (∀ r, r ∈ references line ↔
        ∃ after, line.DollarAt r.start after ∧ Text.LongestPrefix IsName after r.name) ∧
      (∀ r ∈ references line, ∃ before after, line = before ++ '$' :: r.name ++ after ∧
        r.start = Text.byteLength before ∧
        r.finish = Text.byteLength (before ++ '$' :: r.name)) ∧
      (references line).Pairwise fun r r' => r.start < r'.start ∧ r.finish ≤ r'.start := by
  refine ⟨fun p => ⟨?_, ?_⟩, fun r => mem_references_iff_dollarAt, fun r hr => ?_, ?_⟩
  · rintro ⟨r, hr, rfl⟩
    obtain ⟨after, hafter, hname⟩ := mem_references_iff_dollarAt.mp hr
    exact ⟨after, hafter, leadingName_ne_nil_iff.mp (longestPrefix_iff.mp hname).1⟩
  · rintro ⟨after, hafter, hname⟩
    exact ⟨⟨leadingName after, p⟩,
      mem_references_iff_dollarAt.mpr ⟨after, hafter, longestPrefix_leadingName hname⟩, rfl⟩
  · obtain ⟨_, ⟨before, rfl, hstart, -⟩, hname⟩ := mem_references_iff_dollarAt.mp hr
    obtain ⟨after, rfl⟩ := hname.isPrefix
    refine ⟨before, after, by simp, hstart.symm, ?_⟩
    rw [finish, ← hstart, Text.byteLength_append, Text.byteLength_cons, Nat.add_assoc]
    rfl
  · refine (pairwise_layout 0 (lexemes line)).2.imp fun {r r'} h => ⟨?_, h⟩
    rw [finish] at h
    omega

/-- The backslashes before the first dollar sign escape each other, and the second dollar sign is
escaped. -/
example : references "\\\\$a.b \\$c$::d:e".toList =
    [⟨"a.b".toList, 2⟩, ⟨"::d:e".toList, 10⟩] := by
  decide +kernel

end TclAtlas
