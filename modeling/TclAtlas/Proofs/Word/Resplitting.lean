import TclAtlas.Proofs.Word.Boundaries
import TclAtlas.Proofs.Word.Closed

/-!
# Proofs/Word/Resplitting — splitting again what was split

The words of a text are made of runs of its lexemes: white space that is not nested is passed over,
and a word takes in lexemes until such white space follows (`Reading`).  Since the text may be cut
between lexemes, a word alone is that word, and the text up to the end of a word has the words up to
this one.  Words put in a row with single spaces are the same words again, as long as no word ends
in a backslash that a space would be escaped by; only a line feed lets a word other than the last
one end so (`splitWords_stable`).
-/

namespace TclAtlas

namespace Nesting

theorem eq_flat {n : Nesting} (h : n.isOpen = false) : n = .flat := by
  obtain ⟨braces, brackets, quoted⟩ := n
  simp [isOpen] at h
  simp [flat, h]

end Nesting

/-- **Lexemes end with a word** where nothing follows, or nothing is open and white space does. -/
def EndsWith (n : Nesting) (ls : List Lexeme) : Prop :=
  ∀ l ∈ ls.head?, l.kind = .whitespace ∧ n = .flat

/-- **Reading words off lexemes** from a byte position on. -/
inductive Reading : Nat → List Lexeme → List Word → Prop
  | nil (n : Nat) : Reading n [] []
  | gap {n : Nat} {l : Lexeme} {ls : List Lexeme} {ws : List Word} (hl : l.kind = .whitespace)
      (hls : Reading (n + Text.byteLength l.text) ls ws) : Reading n (l :: ls) ws
  | word {n : Nat} {ls ms : List Lexeme} {ws : List Word} (hne : ls ≠ [])
      (hkeeps : Nesting.flat.Keeps ls) (hends : EndsWith (Nesting.flat.afterAll ls) ms)
      (hms : Reading (n + Text.byteLength (ls.flatMap Lexeme.text)) ms ws) :
      Reading n (ls ++ ms) (⟨ls.flatMap Lexeme.text, n⟩ :: ws)

namespace Reading

/-! ## The words of a text are read off its lexemes -/

mutual

theorem of_gather : ∀ (ls : List Lexeme) (start : Nat),
    Reading start ls (Word.gather none .flat (Token.layout start ls))
  | [], start => .nil start
  | l :: ls, start => by
    rw [Token.layout, Word.gather]
    split
    · next hgap => exact .gap hgap.1 (of_gather ls _)
    · next hword =>
      have hl : l.kind ≠ .whitespace := fun hl => hword ⟨hl, rfl⟩
      obtain ⟨us, vs, ws, rfl, hkeeps, hends, hrest, hgather⟩ :=
        of_gather_word ls (Nesting.flat.after l.kind) ⟨l.text, start⟩
          (start + Text.byteLength l.text)
      change Reading start (l :: (us ++ vs)) (Word.gather (some ⟨l.text, start⟩) _ _)
      rw [hgather]
      have hkeeps : Nesting.flat.Keeps (l :: us) := ⟨fun h => absurd h hl, hkeeps⟩
      exact word (List.cons_ne_nil l us) hkeeps hends (by simpa [Nat.add_assoc] using hrest)

/-- A word that has begun takes in lexemes up to where it ends. -/
theorem of_gather_word : ∀ (ls : List Lexeme) (n : Nesting) (w : Word) (start : Nat),
    ∃ us vs ws, ls = us ++ vs ∧ n.Keeps us ∧ EndsWith (n.afterAll us) vs ∧
      Reading (start + Text.byteLength (us.flatMap Lexeme.text)) vs ws ∧
        Word.gather (some w) n (Token.layout start ls) =
          ⟨w.text ++ us.flatMap Lexeme.text, w.start⟩ :: ws
  | [], n, w, start =>
    ⟨[], [], [], rfl, trivial, by simp [EndsWith], .nil _, by simp [Token.layout, Word.gather]⟩
  | l :: ls, n, w, start => by
    rw [Token.layout, Word.gather]
    split
    · next hgap =>
      obtain rfl : n = .flat := Nesting.eq_flat hgap.2
      refine ⟨[], l :: ls, _, rfl, trivial, ?_, .gap hgap.1 (of_gather ls _), by simp⟩
      simpa [EndsWith] using hgap.1
    · next hword =>
      obtain ⟨us, vs, ws, rfl, hkeeps, hends, hrest, hgather⟩ :=
        of_gather_word ls (n.after l.kind) ⟨w.text ++ l.text, w.start⟩
          (start + Text.byteLength l.text)
      refine ⟨l :: us, vs, ws, rfl, ⟨fun hl => ?_, hkeeps⟩, hends, ?_, ?_⟩
      · simpa [hl] using hword
      · simpa [Nat.add_assoc] using hrest
      · rw [Word.extend, hgather]
        simp

end

/-- **What is read off are the words.** -/
theorem gather_eq {n : Nat} {ls : List Lexeme} {ws : List Word} (h : Reading n ls ws) :
    Word.gather none .flat (Token.layout n ls) = ws := by
  induction h with
  | nil n => rfl
  | gap hl hls ih =>
    rw [Token.layout, Word.gather, if_pos ⟨hl, rfl⟩, ih]
    rfl
  | @word n ls ms ws hne hkeeps hends hms ih =>
    obtain ⟨l, ls, rfl⟩ := List.exists_cons_of_ne_nil hne
    have hl : ¬(l.kind = .whitespace ∧ Nesting.flat.isOpen = false) := fun hl => by
      simpa using hkeeps.1 hl.1
    rw [Token.layout_append, Token.layout, List.cons_append, Word.gather, if_neg hl,
      gather_append_of_keeps hkeeps.2, ← Nesting.afterAll_cons]
    rcases ms with _ | ⟨m, ms⟩
    · subst ih
      simp [Word.extend, Token.layout, Word.gather]
    · obtain ⟨hm, hflat⟩ := hends m rfl
      rw [Token.layout, Word.gather, if_pos ⟨hm, rfl⟩] at ih
      rw [hflat, Token.layout, Word.gather, if_pos ⟨hm, rfl⟩]
      exact congrArg (_ :: ·) ih

/-- Lexemes that belong to a word are read as this word. -/
theorem single (n : Nat) {ls : List Lexeme} (hne : ls ≠ []) (hkeeps : Nesting.flat.Keeps ls) :
    Reading n ls [⟨ls.flatMap Lexeme.text, n⟩] := by
  have hends : EndsWith (Nesting.flat.afterAll ls) [] := by simp [EndsWith]
  have hread := word hne hkeeps hends (.nil (n + Text.byteLength (ls.flatMap Lexeme.text)))
  rwa [List.append_nil] at hread

/-- **A word alone** is read off its own lexemes, which stand among the lexemes of the text. -/
theorem exists_alone {n : Nat} {ls : List Lexeme} {ws : List Word} (h : Reading n ls ws) {w : Word}
    (hw : w ∈ ws) :
    ∃ us, us <:+: ls ∧ us.flatMap Lexeme.text = w.text ∧ Reading 0 us [⟨w.text, 0⟩] := by
  induction h with
  | nil n => simp at hw
  | gap hl hls ih =>
    obtain ⟨us, hus, htext, hread⟩ := ih hw
    exact ⟨us, hus.trans (List.suffix_cons _ _).isInfix, htext, hread⟩
  | @word n ls ms ws hne hkeeps hends hms ih =>
    rcases List.mem_cons.mp hw with rfl | hw
    · exact ⟨ls, (List.prefix_append ls ms).isInfix, rfl, single 0 hne hkeeps⟩
    · obtain ⟨us, hus, htext, hread⟩ := ih hw
      exact ⟨us, hus.trans (List.suffix_append ls ms).isInfix, htext, hread⟩

/-- **The lexemes up to the end of a word** are read as the words up to this one. -/
theorem exists_take {n : Nat} {ls : List Lexeme} {ws : List Word} (h : Reading n ls ws) {k : Nat}
    {w : Word} (hw : ws[k]? = some w) :
    ∃ us vs, ls = us ++ vs ∧ n + Text.byteLength (us.flatMap Lexeme.text) = w.finish ∧
      Reading n us (ws.take (k + 1)) := by
  induction h generalizing k with
  | nil n => simp at hw
  | gap hl hls ih =>
    obtain ⟨us, vs, rfl, hfinish, hread⟩ := ih hw
    exact ⟨_ :: us, vs, rfl, by simpa [Nat.add_assoc] using hfinish, .gap hl hread⟩
  | @word n ls ms ws hne hkeeps hends hms ih =>
    cases k with
    | zero =>
      obtain rfl : ⟨ls.flatMap Lexeme.text, n⟩ = w := by simpa using hw
      exact ⟨ls, ms, rfl, rfl, single n hne hkeeps⟩
    | succ k =>
      obtain ⟨us, vs, rfl, hfinish, hread⟩ := ih (by simpa using hw)
      refine ⟨ls ++ us, vs, by simp, by simpa [Nat.add_assoc] using hfinish, ?_⟩
      refine .word hne hkeeps (fun l hl => hends l ?_) hread
      exact List.mem_head?_append_of_mem_head? hl

/-! ## Words put in a row -/

/-- **A word that another one follows** ends before a space, if no line feed comes after it. -/
theorem endsBefore_space {ls ms : List Lexeme} (hlexed : Lexed (ls ++ ms)) (hms : ms ≠ [])
    (hline : '\n' ∉ ms.flatMap Lexeme.text) (hkeeps : Nesting.flat.Keeps ls)
    (hclosed : Nesting.flat.afterAll ls = .flat) (t : Text) : EndsBefore ls (' ' :: t) := by
  obtain ⟨m, ms, rfl⟩ := List.exists_cons_of_ne_nil hms
  intro k hk
  obtain ⟨l, hl, rfl⟩ := Option.map_eq_some_iff.mp hk
  have hsolid : l.kind ≠ .whitespace := fun hspace =>
    Nesting.getLast?_of_keeps hkeeps hclosed (hk.trans (congrArg some hspace))
  refine ⟨fun hslash => ?_, fun _ d hd hkind => ?_⟩
  · obtain ⟨s, hs⟩ := List.head?_eq_some_iff.mp ((hlexed.precedes hl rfl).2 hslash)
    exact hline (by simp [hs])
  · obtain rfl : ' ' = d := by simpa using hd
    exact hsolid hkind.symm

/-- **Words in a row with single spaces** are read as these words. -/
theorem text_wordsFrom_intercalate {n : Nat} {ls : List Lexeme} {ws : List Word}
    (h : Reading n ls ws) (hlexed : Lexed ls) (hline : '\n' ∉ ls.flatMap Lexeme.text) (m : Nat) :
    (wordsFrom m ([' '].intercalate (ws.map Word.text))).map Word.text = ws.map Word.text := by
  induction h generalizing m with
  | nil n => rfl
  | gap hl hls ih =>
    rw [List.flatMap_cons, List.mem_append, not_or] at hline
    exact ih hlexed.of_cons.2.2 hline.2 m
  | @word n ls ms ws hne hkeeps hends hms ih =>
    rw [List.flatMap_append, List.mem_append, not_or] at hline
    have hrest := ih hlexed.right hline.2
    have hls : lexemes (ls.flatMap Lexeme.text) = ls := hlexed.left.lexemes_flatMap
    rcases ws with _ | ⟨v, ws⟩
    · -- the last word may leave something open or end in a backslash
      simp [wordsFrom, hls, (single m hne hkeeps).gather_eq]
    · have hmore : ms ≠ [] := by
        rintro rfl
        exact absurd hms.gather_eq (by simp [Token.layout, Word.gather])
      obtain ⟨l, ms, rfl⟩ := List.exists_cons_of_ne_nil hmore
      obtain ⟨-, hclosed⟩ := hends l rfl
      have htext : ls.flatMap Lexeme.text ≠ [] := by
        obtain ⟨u, us, rfl⟩ := List.exists_cons_of_ne_nil hne
        have hu := (hlexed.fits u List.mem_cons_self).text_ne_nil
        simp [hu]
      have hapart := fun t : Text => lexemes_append_of_endsBefore
        (hls.symm ▸ endsBefore_space hlexed (List.cons_ne_nil l ms) hline.2 hkeeps hclosed t)
      rw [List.map_cons, List.map_cons, List.intercalate_cons_cons, List.append_assoc,
        List.singleton_append, ← List.map_cons,
        wordsFrom_append_of_keeps htext (hapart _) (hls.symm ▸ hkeeps) (hls.symm ▸ hclosed)
          (by simp [EndsWord, LexemeKind.ofChar]),
        wordsFrom_cons_of_whitespace (by decide), List.map_cons, hrest]

end Reading

/-! ## The words of a text -/

theorem reading_splitWords (t : Text) : Reading 0 (lexemes t) (splitWords t) := .of_gather _ 0

theorem splitWords_flatMap {ls : List Lexeme} {ws : List Word} (hlexed : Lexed ls)
    (h : Reading 0 ls ws) : splitWords (ls.flatMap Lexeme.text) = ws := by
  rw [splitWords, tokenize, hlexed.lexemes_flatMap, h.gather_eq]

/-- **Splitting into words loses nothing and is stable.**  The words stand in the text one after the
other, each at its byte position, and outside them there is only white space.  A word alone is split
into just itself, and the text up to the end of a word into the words up to this one.  In a text
without line feeds, the words put in a row with single spaces are split into the same words. -/
theorem splitWords_stable (t : Text) :
    Spaced 0 (splitWords t) t ∧
      (∀ w ∈ splitWords t, splitWords w.text = [⟨w.text, 0⟩]) ∧
      (∀ k w, (splitWords t)[k]? = some w → ∃ s u, t = s ++ u ∧ Text.byteLength s = w.finish ∧
        splitWords s = (splitWords t).take (k + 1)) ∧
      ('\n' ∉ t → (splitWords ([' '].intercalate ((splitWords t).map Word.text))).map Word.text =
        (splitWords t).map Word.text) := by
  have hread := reading_splitWords t
  have hlexed := lexed_lexemes t
  refine ⟨splitWords_spaced t, fun w hw => ?_, fun k w hw => ?_, fun hline => ?_⟩
  · obtain ⟨us, ⟨before, after, hus⟩, htext, halone⟩ := hread.exists_alone hw
    rw [← hus] at hlexed
    rw [← htext] at halone ⊢
    exact splitWords_flatMap hlexed.left.right halone
  · obtain ⟨us, vs, hus, hfinish, htake⟩ := hread.exists_take hw
    rw [hus] at hlexed
    refine ⟨us.flatMap Lexeme.text, vs.flatMap Lexeme.text, ?_, by omega, ?_⟩
    · rw [← List.flatMap_append, ← hus, lexemes_flatten]
    · exact splitWords_flatMap hlexed.left htake
  · exact hread.text_wordsFrom_intercalate hlexed ((lexemes_flatten t).symm ▸ hline) 0

/-- Before a line feed a word may end in a backslash, and a space in its place is escaped by it. -/
example :
    (splitWords ['a', '\\', '\n', 'b']).map Word.text = [['a', '\\'], ['b']] ∧
      (splitWords ['a', '\\', ' ', 'b']).map Word.text = [['a', '\\', ' ', 'b']] := by decide

end TclAtlas
