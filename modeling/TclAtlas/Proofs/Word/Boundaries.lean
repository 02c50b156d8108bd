import TclAtlas.Proofs.Word.Reading
import Mathlib.Data.List.Chain

/-!
# Proofs/Word/Boundaries — cutting a text between two lexemes

Which lists of lexemes lexing yields can be said without lexing: each lexeme fits its kind, and no
lexeme would have gone on into the next one (`Lexed`).  Lexing yields only such lists
(`lexed_lexemes`), and each of them from its own text (`Lexed.lexemes_flatMap`).  As part of such a
list is such a list again, a text may be cut at a boundary between lexemes, and the parts are lexed
as they were lexed together.
-/

namespace TclAtlas

namespace LexemeKind

theorem eq_backslash_of_ofChar {c : Char} (h : ofChar c = .backslash) : c = '\\' := by
  unfold ofChar at h
  repeat' split at h
  all_goals first | assumption | exact absurd h (by decide)

end LexemeKind

namespace Lexeme

/-! ## One lexeme -/

/-- **A lexeme fits its kind**: an escape is a backslash with a character that is no line feed, a
run has characters of its kind, and every other lexeme is a single character. -/
inductive Fits : Lexeme → Prop
  | escape {d : Char} (hd : d ≠ '\n') : Fits ⟨.escape, ['\\', d]⟩
  | run {k : LexemeKind} {s : Text} (hk : k.runs = true) (hs : s ≠ [])
      (hchars : ∀ c ∈ s, LexemeKind.ofChar c = k) : Fits ⟨k, s⟩
  | single {c : Char} (hc : (LexemeKind.ofChar c).runs = false) : Fits ⟨.ofChar c, [c]⟩

theorem fits_single (c : Char) : Fits ⟨.ofChar c, [c]⟩ := by
  by_cases hc : (LexemeKind.ofChar c).runs = true
  · exact .run hc (by simp) (by simp)
  · exact .single (by simpa using hc)

/-- A character in front of a run of its kind lengthens the run. -/
theorem Fits.cons {c : Char} {s : Text} (h : Fits ⟨.ofChar c, s⟩)
    (hc : (LexemeKind.ofChar c).runs = true) : Fits ⟨.ofChar c, c :: s⟩ := by
  generalize hl : (⟨.ofChar c, s⟩ : Lexeme) = l at h
  refine .run hc (by simp) (List.forall_mem_cons.mpr ⟨rfl, fun e he => ?_⟩)
  cases h with
  | escape hd => exact absurd (congrArg kind hl) (LexemeKind.ofChar_ne_escape c)
  | run hk hs hchars =>
    obtain ⟨rfl, rfl⟩ := Lexeme.mk.inj hl
    exact hchars e he
  | single hd =>
    obtain ⟨hkind, rfl⟩ := Lexeme.mk.inj hl
    exact absurd (hkind ▸ hc) (by simp [hd])

theorem Fits.text_ne_nil {l : Lexeme} (h : l.Fits) : l.text ≠ [] := by
  cases h with
  | run hk hs hchars => exact hs
  | _ => exact List.cons_ne_nil _ _

/-- A lexeme that begins with a character of runs is a run of its kind. -/
theorem Fits.kind_of_head {l : Lexeme} (h : l.Fits) {c : Char} (hc : c ∈ l.text.head?)
    (hruns : (LexemeKind.ofChar c).runs = true) : l.kind = .ofChar c := by
  cases h with
  | escape hd =>
    obtain rfl : '\\' = c := by simpa using hc
    exact absurd hruns (by decide)
  | run hk hs hchars => exact (hchars c (List.mem_of_head? hc)).symm
  | @single d hd =>
    obtain rfl : d = c := by simpa using hc
    rfl

/-! ## Neighbours -/

/-- **One lexeme may precede another**: the run ends there, and a backslash that escapes nothing has
a line feed after it. -/
def Precedes (l m : Lexeme) : Prop :=
  (l.kind.runs = true → m.kind ≠ l.kind) ∧ (l.kind = .backslash → m.text.head? = some '\n')

end Lexeme

/-- **A list of lexemes that lexing yields.** -/
structure Lexed (ls : List Lexeme) : Prop where
  fits : ∀ l ∈ ls, l.Fits
  chain : ls.IsChain Lexeme.Precedes

namespace Lexed

variable {l : Lexeme} {ls ms : List Lexeme}

theorem nil : Lexed [] := ⟨by simp, .nil⟩

theorem cons (hl : l.Fits) (hhead : ∀ m ∈ ls.head?, l.Precedes m) (hls : Lexed ls) :
    Lexed (l :: ls) :=
  ⟨List.forall_mem_cons.mpr ⟨hl, hls.fits⟩, List.isChain_cons.mpr ⟨hhead, hls.chain⟩⟩

theorem of_cons (h : Lexed (l :: ls)) :
    l.Fits ∧ (∀ m ∈ ls.head?, l.Precedes m) ∧ Lexed ls :=
  ⟨(List.forall_mem_cons.mp h.fits).1, (List.isChain_cons.mp h.chain).1,
    (List.forall_mem_cons.mp h.fits).2, (List.isChain_cons.mp h.chain).2⟩

theorem left (h : Lexed (ls ++ ms)) : Lexed ls :=
  ⟨fun l hl => h.fits l (List.mem_append_left ms hl), h.chain.left_of_append⟩

theorem right (h : Lexed (ls ++ ms)) : Lexed ms :=
  ⟨fun l hl => h.fits l (List.mem_append_right ls hl), h.chain.right_of_append⟩

/-- **Neighbours at a boundary.** -/
theorem precedes (h : Lexed (ls ++ ms)) {l m : Lexeme} (hl : l ∈ ls.getLast?)
    (hm : m ∈ ms.head?) : l.Precedes m :=
  (List.isChain_append.mp h.chain).2.2 l hl m hm

end Lexed

/-! ## Lexing -/

/-- Attaching a character keeps what lexing yields. -/
theorem Lexed.attach {c : Char} {ls : List Lexeme} (h : Lexed ls)
    (hslash : c = '\\' → ∀ l ∈ ls.head?, l.text.head? = some '\n') :
    Lexed (Lexeme.attach (.ofChar c) c ls) := by
  rcases ls with _ | ⟨l, ls⟩
  · exact Lexed.nil.cons (Lexeme.fits_single c) (by simp)
  · obtain ⟨hl, hhead, hls⟩ := h.of_cons
    rw [Lexeme.attach]
    split
    · next hrun =>
      obtain ⟨k, s⟩ := l
      obtain ⟨hk, rfl⟩ : (LexemeKind.ofChar c).runs = true ∧ k = .ofChar c := hrun
      refine hls.cons (hl.cons hk) fun m hm => ⟨(hhead m hm).1, fun hkind => ?_⟩
      rw [show LexemeKind.ofChar c = .backslash from hkind] at hk
      exact absurd hk (by decide)
    · next hrun =>
      refine h.cons (Lexeme.fits_single c) fun m hm => ?_
      obtain rfl : l = m := by simpa using hm
      refine ⟨fun hk hkind => hrun ⟨hk, hkind⟩, fun hkind => ?_⟩
      exact hslash (LexemeKind.eq_backslash_of_ofChar hkind) l rfl

/-- **Lexing yields only such lists.** -/
theorem lexed_lexemes : ∀ t : Text, Lexed (lexemes t)
  | [] => .nil
  | [c] => Lexed.nil.cons (Lexeme.fits_single c) (by simp)
  | c :: d :: t => by
    rw [lexemes]
    split
    · next hesc =>
      obtain ⟨rfl, hd⟩ := hesc
      exact (lexed_lexemes t).cons (.escape hd) fun m _ => ⟨by simp [LexemeKind.runs], by simp⟩
    · next hesc =>
      refine (lexed_lexemes (d :: t)).attach fun hc l hl => ?_
      obtain rfl : d = '\n' := by
        by_contra hd
        exact hesc ⟨hc, hd⟩
      obtain ⟨m, ms, hls⟩ := List.exists_cons_of_ne_nil (lexemes_ne_nil '\n' t)
      obtain ⟨cs, hcs⟩ := exists_text_of_head hls
      obtain rfl : m = l := by simpa [hls] using hl
      rw [hcs]
      rfl

/-- **Lexing yields each such list from its own text.** -/
theorem Lexed.lexemes_flatMap : ∀ {ls : List Lexeme}, Lexed ls →
    lexemes (ls.flatMap Lexeme.text) = ls
  | [], _ => rfl
  | l :: ls, h => by
    obtain ⟨hl, hhead, hls⟩ := h.of_cons
    have ih := hls.lexemes_flatMap
    rw [List.flatMap_cons]
    cases hl with
    | @escape d hd =>
      change lexemes ('\\' :: d :: ls.flatMap Lexeme.text) = _
      rw [lexemes, if_pos ⟨rfl, hd⟩, ih]
    | @run k s hk hs hchars =>
      have hslash : '\\' ∉ s := fun hmem => by
        rw [← hchars _ hmem] at hk
        exact absurd hk (by decide)
      have hparts : Parts s (ls.flatMap Lexeme.text) := by
        intro c hc d hd hruns hkind
        rcases ls with _ | ⟨m, ls⟩
        · simp at hd
        have hm : m.Fits := hls.fits m List.mem_cons_self
        have hd' : d ∈ m.text.head? := by
          rwa [List.flatMap_cons, List.head?_append_of_ne_nil _ hm.text_ne_nil] at hd
        have hck : LexemeKind.ofChar c = k := hchars c (List.mem_of_getLast? hc)
        have hmd := hm.kind_of_head hd' (hkind ▸ hruns)
        exact (hhead m rfl).1 hk (hmd.trans (hkind.symm.trans hck))
      rw [lexemes_append hslash hparts, lexemes_of_run hk hs hchars, ih]
      rfl
    | @single c hc =>
      change lexemes (c :: ls.flatMap Lexeme.text) = _
      by_cases hslash : c = '\\'
      · -- a backslash that escapes nothing: a line feed or nothing comes after it
        subst hslash
        rcases ls with _ | ⟨m, ls⟩
        · rfl
        obtain ⟨s, hs⟩ : ∃ s, m.text = '\n' :: s :=
          List.head?_eq_some_iff.mp ((hhead m rfl).2 rfl)
        rw [List.flatMap_cons, hs, List.cons_append] at ih ⊢
        rw [lexemes, if_neg (by simp), attach_lexemes_of_parts (by simp [Parts, hc]), ih]
      · rw [lexemes_cons_of_single hslash hc, ih]

end TclAtlas
