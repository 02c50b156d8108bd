import TclAtlas.Proofs.Word.Lexing
import TclAtlas.Word
import Mathlib.Data.List.Basic

/-!
# Proofs/Word/Spacing — where the words of a text stand

The words of a text stand in it one after the other, at the positions they carry, with nothing but
white space around them (`splitWords_spaced`).  So every word has white space or an end of the text
on either side (`Spaced.exists_around`), and the first word is the text up to some white space
(`Spaced.of_cons`).
-/

namespace TclAtlas

/-- A text of white space. -/
def IsGap (t : Text) : Prop := ∀ c ∈ t, LexemeKind.ofChar c = .whitespace

/-- A text that is empty or goes on with white space. -/
def EndsWord (t : Text) : Prop := ∀ c ∈ t.head?, LexemeKind.ofChar c = .whitespace

/-- A text that begins with something else than white space. -/
def BeginsWord (t : Text) : Prop := ∃ c cs, t = c :: cs ∧ LexemeKind.ofChar c ≠ .whitespace

theorem IsGap.append {s t : Text} (hs : IsGap s) (ht : IsGap t) : IsGap (s ++ t) :=
  fun c hc => (List.mem_append.mp hc).elim (hs c) (ht c)

/-- **Words that stand in a text** from a byte position on, with white space around each of them. -/
def Spaced : Nat → List Word → Text → Prop
  | _, [], t => IsGap t
  | n, w :: ws, t => ∃ gap after, t = gap ++ (w.text ++ after) ∧ IsGap gap ∧
    w.start = n + Text.byteLength gap ∧ BeginsWord w.text ∧ EndsWord after ∧
    Spaced (w.start + Text.byteLength w.text) ws after

/-- **The words of a text in which a word has begun just before**: the word goes on up to some white
space, and the other words stand in what is left. -/
def GoesOn (w : Word) (ws : List Word) (t : Text) : Prop :=
  ∃ more after vs, t = more ++ after ∧ EndsWord after ∧ ws = ⟨w.text ++ more, w.start⟩ :: vs ∧
    Spaced (w.finish + Text.byteLength more) vs after

theorem Spaced.gap_append {gap : Text} (hgap : IsGap gap) {n : Nat} {t : Text} :
    ∀ {ws : List Word}, Spaced (n + Text.byteLength gap) ws t → Spaced n ws (gap ++ t)
  | [], h => hgap.append h
  | _ :: _, ⟨gap', after, ht, hgap', hstart, hrest⟩ =>
    ⟨gap ++ gap', after, by simp [ht], hgap.append hgap', by simp [hstart, Nat.add_assoc], hrest⟩

namespace GoesOn

/-- A word that ends here. -/
theorem of_spaced {w : Word} {ws : List Word} {t : Text} (ht : EndsWord t)
    (h : Spaced w.finish ws t) : GoesOn w (w :: ws) t :=
  ⟨[], t, ws, rfl, ht, by simp, h⟩

/-- A word that takes in more text. -/
theorem extend {w : Word} {ws : List Word} {s t : Text}
    (h : GoesOn ⟨w.text ++ s, w.start⟩ ws t) : GoesOn w ws (s ++ t) := by
  obtain ⟨more, after, vs, ht, hends, hws, hspaced⟩ := h
  refine ⟨s ++ more, after, vs, by simp [ht], hends, by simp [hws], ?_⟩
  simpa [Word.finish, Nat.add_assoc] using hspaced

/-- The word that has begun stands before the others. -/
theorem spaced {w : Word} {ws : List Word} {t : Text} (hw : BeginsWord w.text)
    (h : GoesOn w ws t) : Spaced w.start ws (w.text ++ t) := by
  obtain ⟨more, after, vs, rfl, hends, rfl, hspaced⟩ := h
  refine ⟨[], after, by simp, by simp [IsGap], rfl, ?_, hends, ?_⟩
  · obtain ⟨c, cs, hc, hne⟩ := hw
    exact ⟨c, cs ++ more, by simp [hc], hne⟩
  · simpa [Word.finish, Nat.add_assoc] using hspaced

end GoesOn

/-! ## Gathering words -/

namespace Lexeme.Formed

variable {l : Lexeme}

theorem isGap (h : l.Formed) (hkind : l.kind = .whitespace) : IsGap l.text := by
  rcases h with ⟨hesc, -⟩ | ⟨-, -, hchars⟩
  · exact absurd (hkind.symm.trans hesc) (by simp)
  · exact fun c hc => (hchars c hc).trans hkind

theorem beginsWord (h : l.Formed) (hkind : l.kind ≠ .whitespace) : BeginsWord l.text := by
  rcases h with ⟨-, d, hd⟩ | ⟨-, hne, hchars⟩
  · exact ⟨'\\', [d], hd, by decide⟩
  · obtain ⟨c, cs, hc⟩ := List.exists_cons_of_ne_nil hne
    exact ⟨c, cs, hc, fun hc' => hkind ((hchars c (hc ▸ List.mem_cons_self)).symm.trans hc')⟩

theorem endsWord_append (h : l.Formed) (hkind : l.kind = .whitespace) (t : Text) :
    EndsWord (l.text ++ t) := by
  rcases h with ⟨hesc, -⟩ | ⟨-, hne, hchars⟩
  · exact absurd (hkind.symm.trans hesc) (by simp)
  · obtain ⟨c, cs, hc⟩ := List.exists_cons_of_ne_nil hne
    intro d hd
    obtain rfl : c = d := by simpa [hc] using hd
    exact (hchars c (hc ▸ List.mem_cons_self)).trans hkind

end Lexeme.Formed

namespace Word

mutual

/-- With no word begun, words are gathered in their places. -/
theorem spaced_gather : ∀ (ls : List Lexeme), (∀ l ∈ ls, l.Formed) → ∀ (n : Nesting) (start : Nat),
    n.isOpen = false →
      Spaced start (gather none n (Token.layout start ls)) (ls.flatMap Lexeme.text)
  | [], _, _, _, _ => fun _ hc => absurd hc (by simp)
  | l :: ls, hls, n, start, hopen => by
    have hl : l.Formed := hls l List.mem_cons_self
    have hrest : ∀ m ∈ ls, m.Formed := fun m hm => hls m (List.mem_cons_of_mem l hm)
    rw [Token.layout, gather, List.flatMap_cons]
    split
    · next hgap => exact (spaced_gather ls hrest n _ hopen).gap_append (hl.isGap hgap.1)
    · next hword =>
      have hkind : l.kind ≠ .whitespace := fun hkind => hword ⟨hkind, hopen⟩
      exact (goesOn_gather ls hrest _ ⟨l.text, start⟩).spaced (hl.beginsWord hkind)

/-- With a word begun, this word is gathered up to some white space. -/
theorem goesOn_gather : ∀ (ls : List Lexeme), (∀ l ∈ ls, l.Formed) → ∀ (n : Nesting) (w : Word),
    GoesOn w (gather (some w) n (Token.layout w.finish ls)) (ls.flatMap Lexeme.text)
  | [], _, _, w => .of_spaced (by simp [EndsWord]) (fun _ hc => absurd hc (by simp))
  | l :: ls, hls, n, w => by
    have hl : l.Formed := hls l List.mem_cons_self
    have hrest : ∀ m ∈ ls, m.Formed := fun m hm => hls m (List.mem_cons_of_mem l hm)
    rw [Token.layout, gather, List.flatMap_cons]
    split
    · next hgap =>
      refine .of_spaced (hl.endsWord_append hgap.1 _) ?_
      exact (spaced_gather ls hrest n _ hgap.2).gap_append (hl.isGap hgap.1)
    · have hfinish : w.finish + Text.byteLength l.text = finish ⟨w.text ++ l.text, w.start⟩ := by
        simp [finish, Nat.add_assoc]
      rw [hfinish]
      exact (goesOn_gather ls hrest _ ⟨w.text ++ l.text, w.start⟩).extend

end

end Word

/-! ## The words of a text -/

/-- **The words of a text stand in it**, at their positions, with white space around them. -/
theorem splitWords_spaced (t : Text) : Spaced 0 (splitWords t) t := by
  have h := Word.spaced_gather (lexemes t) (fun _ => formed_of_mem_lexemes) .flat 0 rfl
  rwa [lexemes_flatten] at h

namespace Spaced

/-- **Every word stands in the text at its position**, with white space or nothing on either
side. -/
theorem exists_around : ∀ {n : Nat} {ws : List Word} {t : Text}, Spaced n ws t → ∀ {w : Word},
    w ∈ ws → BeginsWord w.text ∧ ∃ before after, t = before ++ (w.text ++ after) ∧
      w.start = n + Text.byteLength before ∧
      (∀ c ∈ before.getLast?, LexemeKind.ofChar c = .whitespace) ∧ EndsWord after
  | _, v :: ws, _, ⟨gap, rest, ht, hgap, hstart, hbegins, hends, hrest⟩, w, hw => by
    rcases List.mem_cons.mp hw with rfl | hw
    · exact ⟨hbegins, gap, rest, ht, hstart, fun c hc => hgap c (List.mem_of_getLast? hc), hends⟩
    · obtain ⟨hw', before, after, hafter, hstart', hlast, hends'⟩ := hrest.exists_around hw
      refine ⟨hw', gap ++ (v.text ++ before), after, by simp [ht, hafter], ?_, ?_, hends'⟩
      · simp [hstart', hstart, Nat.add_assoc]
      · obtain ⟨c, cs, hc, hne⟩ := hw'
        have hbefore : before ≠ [] := by
          rintro rfl
          exact hne (hends c (by simp [hafter, hc]))
        intro d hd
        rw [← List.append_assoc, List.getLast?_append_of_ne_nil _ hbefore] at hd
        exact hlast d hd

/-- **The first word** has nothing but white space before it, and white space after it. -/
theorem of_cons {n : Nat} {w : Word} {ws : List Word} {t : Text} (h : Spaced n (w :: ws) t) :
    ∃ gap after, t = gap ++ (w.text ++ after) ∧ IsGap gap ∧ EndsWord after := by
  obtain ⟨gap, after, ht, hgap, -, -, hends, -⟩ := h
  exact ⟨gap, after, ht, hgap, hends⟩

end Spaced

end TclAtlas
