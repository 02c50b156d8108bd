import TclAtlas.Proofs.DictLiteral.Decoding
import TclAtlas.Proofs.Word.Matching
import TclAtlas.Proofs.Word.Names
import TclAtlas.Proofs.Word.Resplitting

/-!
# Proofs/DictLiteral/Opacity — which braced values are read as written

A value in braces may hold anything whose braces match, but for quotes and backslashes.  Neither of
the two that read a literal leaves it at that: the bracket group ends at the first bracket that
closes it, be it between braces, and a word goes on while a bracket is open, also one from between
braces.  So the entries of a literal are the keys and values it was written from exactly when the
brackets match too in each of the values (`DictLiteral.entries_braced_iff`).

What a bracket group holds of a row of words is `DictLiteral.inside`.  It is followed word by word:
closed words are read one after the other (`DictLiteral.wordsFrom_inside_cons`), and the first value
whose brackets do not match comes out shorter or longer than it was written
(`DictLiteral.ne_braced_of_not_matched`).
-/

namespace TclAtlas

/-! ## Values in braces -/

theorem lexemes_braced {v : Text} (hv : '\\' ∉ v) :
    lexemes (braced v) = ⟨.openBrace, ['{']⟩ :: (lexemes v ++ [⟨.closeBrace, ['}']⟩]) := by
  rw [braced, lexemes_cons_of_single (by decide) (by decide),
    lexemes_append_cons_of_single (by decide) (by decide) hv]
  rfl

/-- What comes after a value in braces is lexed apart from it. -/
theorem lexemes_braced_append {v : Text} (hv : '\\' ∉ v) (t : Text) :
    lexemes (braced v ++ t) = lexemes (braced v) ++ lexemes t := by
  have hesc : '\\' ∉ braced v := by simp [braced, hv]
  refine lexemes_append hesc fun c hc d _ hruns => ?_
  obtain rfl : '}' = c := by
    rw [braced, ← List.cons_append, List.getLast?_concat] at hc
    exact Option.some.inj hc
  exact absurd hruns (by decide)

namespace IsBraceable

variable {v : Text} (hv : IsBraceable v)

include hv

/-- **A value in braces belongs to one word.** -/
theorem keeps : Nesting.flat.Keeps (lexemes (braced v)) := by
  obtain ⟨brackets, -, hkeeps⟩ := Nesting.braces_afterAll hv.toIsBare hv.matched 0
  rw [lexemes_braced hv.noEscape]
  refine ⟨by simp, Nesting.keeps_append.mpr ⟨hkeeps, ?_⟩⟩
  simp [Nesting.Keeps]

/-- **A value in braces pairs its brackets** and leaves `b` of them open when its characters do. -/
theorem openAfter?_iff {b : Nat} : Delimiter.bracket.openAfter? 0 v = some b ↔
    Nesting.flat.Paired (lexemes (braced v)) ∧
      Nesting.flat.afterAll (lexemes (braced v)) = ⟨0, b, false⟩ := by
  obtain ⟨brackets, hall, -⟩ := Nesting.braces_afterAll hv.toIsBare hv.matched 0
  have hopen : Nesting.flat.after .openBrace = ⟨0 + 1, 0, false⟩ := rfl
  have hclose : (⟨0 + 1, brackets, false⟩ : Nesting).after .closeBrace = ⟨0, brackets, false⟩ := rfl
  rw [Nesting.paired_brackets_iff hv.toIsBare (0 + 1), lexemes_braced hv.noEscape, Nesting.Paired,
    Nesting.paired_append, Nesting.afterAll_cons, Nesting.afterAll_append, hopen, hall,
    Nesting.afterAll_cons, hclose]
  simp [Nesting.Paired]

theorem exists_openAfter?_of_paired (h : Nesting.flat.Paired (lexemes (braced v))) :
    ∃ b, Delimiter.bracket.openAfter? 0 v = some b := by
  rw [lexemes_braced hv.noEscape] at h
  exact ⟨_, (Nesting.paired_brackets_iff hv.toIsBare 1).mpr ⟨(Nesting.paired_append.mp h.2).1, rfl⟩⟩

/-- **A value in braces whose brackets match is a closed word.** -/
theorem isClosedWord (hbrackets : Delimiter.bracket.Matched v) : IsClosedWord (braced v) := by
  obtain ⟨hpaired, hclosed⟩ := hv.openAfter?_iff.mp hbrackets
  refine .of_keeps (by simp [braced]) hv.keeps hclosed hpaired ?_
  rw [lexemes_braced hv.noEscape, ← List.cons_append, List.getLast?_append]
  simp

end IsBraceable

/-! ## What a bracket group holds -/

theorem wordsFrom_spaced (n : Nat) (t : Text) : Spaced n (wordsFrom n t) t := by
  have h := Word.spaced_gather (lexemes t) (fun _ => formed_of_mem_lexemes) .flat n rfl
  rwa [lexemes_flatten] at h

/-- A word is no longer than the text it stands in. -/
theorem length_le_of_mem_wordsFrom {n : Nat} {t : Text} {w : Word} (hw : w ∈ wordsFrom n t) :
    w.text.length ≤ t.length := by
  obtain ⟨-, before, after, ht, -⟩ := (wordsFrom_spaced n t).exists_around hw
  rw [ht, List.length_append, List.length_append]
  omega

/-- **A word goes on while something is open.** -/
theorem exists_more_of_isOpen {w t : Text} (hne : w ≠ []) (ht : t ≠ [])
    (hapart : lexemes (w ++ t) = lexemes w ++ lexemes t) (hkeeps : Nesting.flat.Keeps (lexemes w))
    (hopen : (Nesting.flat.afterAll (lexemes w)).isOpen = true) (n : Nat) :
    ∃ more ws, more ≠ [] ∧ wordsFrom n (w ++ t) = ⟨w ++ more, n⟩ :: ws := by
  have hflat := lexemes_flatten w
  obtain ⟨c, cs, rfl⟩ := List.exists_cons_of_ne_nil hne
  obtain ⟨d, ds, rfl⟩ := List.exists_cons_of_ne_nil ht
  obtain ⟨l, ls, hls⟩ := List.exists_cons_of_ne_nil (lexemes_ne_nil c cs)
  obtain ⟨m, ms, hms⟩ := List.exists_cons_of_ne_nil (lexemes_ne_nil d ds)
  rw [hls] at hflat hkeeps hopen
  have hl : ¬(l.kind = .whitespace ∧ Nesting.flat.isOpen = false) := fun hl => by
    simpa using hkeeps.1 hl.1
  have hm : ¬(m.kind = .whitespace ∧
      ((Nesting.flat.after l.kind).afterAll ls).isOpen = false) := fun hm => by
    simp [← Nesting.afterAll_cons, hopen] at hm
  have hword : l.text ++ ls.flatMap Lexeme.text = c :: cs := by simpa using hflat
  rw [wordsFrom, hapart, hls, hms, List.cons_append, Token.layout, Word.gather, if_neg hl,
    Token.layout_append, gather_append_of_keeps hkeeps.2, Token.layout, Word.gather, if_neg hm,
    Word.extend, Word.extend, hword]
  obtain ⟨us, -, ws, -, -, -, -, hgather⟩ := Reading.of_gather_word ms
    (((Nesting.flat.after l.kind).afterAll ls).after m.kind) ⟨(c :: cs) ++ m.text, n⟩ _
  refine ⟨m.text ++ us.flatMap Lexeme.text, ws, ?_, hgather.trans (by simp)⟩
  simp [text_ne_nil_of_mem (hms ▸ List.mem_cons_self)]

/-- Lexemes that close a bracket that is not open are cut off there. -/
theorem Nesting.exists_untilClose_of_not_paired (ms : List Lexeme) : ∀ {n : Nesting}
    {ls : List Lexeme}, ¬n.Paired ls → ∃ us vs, ls = us ++ vs ∧ vs ≠ [] ∧
      Delimiter.bracket.untilClose n.brackets n.quoted (ls ++ ms) = us.flatMap Lexeme.text
  | _, [], h => absurd trivial h
  | n, l :: ls, h => by
    by_cases hl : l.kind = .closeBracket → n.quoted = false → n.brackets ≠ 0
    · have hls : ¬(n.after l.kind).Paired ls := fun hls => h ⟨hl, hls⟩
      obtain ⟨us, vs, rfl, hvs, htext⟩ := exists_untilClose_of_not_paired ms hls
      have hcons := untilClose_cons hl (us ++ vs ++ ms) 0
      rw [Nat.zero_add, Nat.zero_add, htext] at hcons
      exact ⟨l :: us, vs, rfl, hvs, hcons⟩
    · simp only [Classical.not_imp, not_not] at hl
      obtain ⟨hkind, hquoted, hbrackets⟩ := hl
      refine ⟨[], l :: ls, rfl, by simp, ?_⟩
      rw [List.cons_append, Delimiter.untilClose.eq_def]
      simp [hkind, hquoted, hbrackets, Delimiter.heedsQuotes, Delimiter.opens, Delimiter.closes]

/-- White space belongs to a bracket group. -/
theorem Delimiter.untilClose_whitespace {l : Lexeme} (hl : l.kind = .whitespace) (depth : Nat)
    (ls : List Lexeme) : bracket.untilClose depth false (l :: ls) =
      l.text ++ bracket.untilClose depth false ls := by
  have hclose : l.kind = .closeBracket → Nesting.flat.quoted = false → Nesting.flat.brackets ≠ 0 :=
    fun hc => by simp [hl] at hc
  have h := Nesting.untilClose_cons hclose ls depth
  rwa [hl] at h

namespace DictLiteral

/-- **What a bracket group holds** of words with spaces in front of them and a closing bracket after
them, when `depth` groups are open inside it. -/
def inside (depth : Nat) (ws : List Text) : Text :=
  Delimiter.bracket.untilClose depth false (lexemes (spaced ws ++ [']']))

theorem spaced_cons_append (w : Text) (ws : List Text) (t : Text) :
    spaced (w :: ws) ++ t = ' ' :: (w ++ (spaced ws ++ t)) := by simp [spaced]

theorem inside_nil (depth : Nat) : inside depth [] = if depth = 0 then [] else [']'] := by
  cases depth <;> rfl

/-- The space before the first word is inside. -/
theorem exists_inside_cons (depth : Nat) (w : Text) (ws : List Text) :
    ∃ t, inside depth (w :: ws) = ' ' :: t := by
  obtain ⟨l, ls, hls⟩ := List.exists_cons_of_ne_nil
    (lexemes_ne_nil ' ' (w ++ (spaced ws ++ [']'])))
  obtain ⟨cs, hcs⟩ := exists_text_of_head hls
  have hkind : l.kind = .whitespace := kind_of_head hls (ne_escape_of_head (by decide) hls)
  refine ⟨cs ++ Delimiter.bracket.untilClose depth false ls, ?_⟩
  rw [inside, spaced_cons_append, hls, Delimiter.untilClose_whitespace hkind, hcs]
  rfl

theorem endsWord_inside (ws : List Text) : EndsWord (inside 0 ws) := by
  rcases ws with _ | ⟨w, ws⟩
  · simp [inside_nil, EndsWord]
  · obtain ⟨t, ht⟩ := exists_inside_cons 0 w ws
    simp [ht, EndsWord, LexemeKind.ofChar]

theorem inside_ne_nil (depth : Nat) (ws : List Text) : inside (depth + 1) ws ≠ [] := by
  rcases ws with _ | ⟨w, ws⟩
  · simp [inside_nil]
  · obtain ⟨t, ht⟩ := exists_inside_cons (depth + 1) w ws
    simp [ht]

/-- A word that begins with something else than white space is inside after its space. -/
theorem inside_cons {w : Text} (hw : BeginsWord w) (depth : Nat) (ws : List Text) :
    inside depth (w :: ws) =
      ' ' :: Delimiter.bracket.untilClose depth false (lexemes (w ++ (spaced ws ++ [']']))) := by
  have hparts : Parts [' '] (w ++ (spaced ws ++ [']'])) := by
    obtain ⟨c, cs, rfl, hc⟩ := hw
    intro d hd e he _ heq
    obtain rfl : ' ' = d := by simpa using hd
    obtain rfl : c = e := by simpa using he
    exact hc heq.symm
  rw [inside, spaced_cons_append, lexemes_cons_of_ne (by decide), attach_lexemes_of_parts hparts,
    Delimiter.untilClose_whitespace (by rfl)]
  rfl

/-- **A closed word is inside as it stands**, and what follows is inside as before. -/
theorem untilClose_closedWord {w : Text} (hw : IsClosedWord w) (ws : List Text) :
    Delimiter.bracket.untilClose 0 false (lexemes (w ++ (spaced ws ++ [']']))) =
      w ++ inside 0 ws := by
  have hends : EndsBefore (lexemes w) (spaced ws ++ [']']) := by
    refine hw.isBalanced.endsBefore fun d hd => ?_
    rcases ws with _ | ⟨u, ws⟩
    · obtain rfl : ']' = d := by simpa [spaced] using hd
      decide
    · obtain rfl : ' ' = d := by simpa [spaced] using hd
      decide
  have h := hw.paired.untilClose_append (lexemes (spaced ws ++ [']'])) 0
  rw [lexemes_append_of_endsBefore hends]
  rwa [hw.closed, lexemes_flatten] at h

theorem wordsFrom_inside_cons {w : Text} (hw : IsClosedWord w) (ws : List Text) (n : Nat) :
    wordsFrom n (inside 0 (w :: ws)) =
      ⟨w, n + 1⟩ :: wordsFrom (n + 1 + Text.byteLength w) (inside 0 ws) := by
  rw [inside_cons hw.beginsWord, untilClose_closedWord hw, wordsFrom_cons_of_whitespace (by decide)]
  exact hw.wordsFrom_append (endsWord_inside ws) (n + 1)

/-- **The body of a written literal** is what the brackets hold of its keys and values. -/
theorem body?_write_eq_inside (ws : List Text) : body? (write ws) = some (inside 0 ws) := by
  have hcontent : Delimiter.bracket.content? (write ws) =
      some (dictWord ++ inside 0 (createWord :: ws)) := by
    rw [write, List.append_assoc, Delimiter.content?, if_pos (by rfl),
      untilClose_closedWord isClosedWord_dictWord]
  have hcreate : inside 0 (createWord :: ws) = ' ' :: (createWord ++ inside 0 ws) := by
    rw [inside_cons isClosedWord_createWord.beginsWord,
      untilClose_closedWord isClosedWord_createWord]
  have hwords : splitWords (dictWord ++ inside 0 (createWord :: ws)) =
      ⟨dictWord, 0⟩ :: ⟨createWord, 5⟩ :: wordsFrom 11 (inside 0 ws) := by
    rw [splitWords_eq_wordsFrom, isClosedWord_dictWord.wordsFrom_append (endsWord_inside _),
      wordsFrom_inside_cons isClosedWord_createWord]
    rfl
  have hdrop : Text.dropBytes (Word.finish ⟨createWord, 5⟩)
      (dictWord ++ inside 0 (createWord :: ws)) = inside 0 ws := by
    rw [show dictWord ++ inside 0 (createWord :: ws) =
      (dictWord ++ ' ' :: createWord) ++ inside 0 ws from by simp [hcreate]]
    exact Text.dropBytes_byteLength_append (dictWord ++ ' ' :: createWord) (inside 0 ws)
  have htrim : Text.trim (write ws) = write ws := trim_bracketed _
  simp only [body?, htrim, hcontent, hwords, hdrop, Option.bind_eq_bind, Option.bind_some,
    and_self, if_true]

/-! ## Values whose brackets do not match -/

section

variable {v : Text} (hv : IsBraceable v)

include hv

/-- **A value that closes a bracket it did not open** is cut off there. -/
theorem length_untilClose_lt (h : Delimiter.bracket.openAfter? 0 v = none) (t : Text) :
    (Delimiter.bracket.untilClose 0 false (lexemes (braced v ++ t))).length <
      (braced v).length := by
  have hpaired : ¬Nesting.flat.Paired (lexemes (braced v)) := fun hpaired => by
    obtain ⟨b, hb⟩ := hv.exists_openAfter?_of_paired hpaired
    exact absurd (h.symm.trans hb) (by simp)
  obtain ⟨us, vs, hlexemes, hvs, htext⟩ :=
    Nesting.exists_untilClose_of_not_paired (lexemes t) hpaired
  have htext : Delimiter.bracket.untilClose 0 false (lexemes (braced v) ++ lexemes t) =
    us.flatMap Lexeme.text := htext
  obtain ⟨l, vs, rfl⟩ := List.exists_cons_of_ne_nil hvs
  have hl : 0 < l.text.length := List.length_pos_of_ne_nil
    (text_ne_nil_of_mem (hlexemes ▸ List.mem_append_right us List.mem_cons_self))
  have hflat := congrArg List.length (lexemes_flatten (braced v))
  rw [hlexemes, List.flatMap_append, List.flatMap_cons, List.length_append,
    List.length_append] at hflat
  rw [lexemes_braced_append hv.noEscape, htext]
  omega

/-- **A value that leaves brackets open** is inside as it stands, and what follows is inside with as
many groups open. -/
theorem untilClose_braced {b : Nat} (h : Delimiter.bracket.openAfter? 0 v = some b)
    (ws : List Text) :
    Delimiter.bracket.untilClose 0 false (lexemes (braced v ++ (spaced ws ++ [']']))) =
      braced v ++ inside b ws := by
  obtain ⟨hpaired, hafter⟩ := hv.openAfter?_iff.mp h
  have hinside := hpaired.untilClose_append (lexemes (spaced ws ++ [']'])) 0
  simp only [hafter, lexemes_flatten, Nat.zero_add] at hinside
  rw [lexemes_braced_append hv.noEscape]
  exact hinside

/-- **A value whose brackets do not match is not read as written**: the group ends within it, or the
word goes on after it. -/
theorem ne_braced_of_not_matched (hbrackets : ¬Delimiter.bracket.Matched v) {ws : List Text}
    {n : Nat} {w : Word} {rest : List Word}
    (hw : wordsFrom n (inside 0 (braced v :: ws)) = w :: rest) : w.text ≠ braced v := by
  have hbegins : BeginsWord (braced v) := ⟨'{', _, rfl, by decide⟩
  rw [inside_cons hbegins, wordsFrom_cons_of_whitespace (by decide)] at hw
  rcases hopen : Delimiter.bracket.openAfter? 0 v with _ | b
  · have hlt := length_untilClose_lt hv hopen (spaced ws ++ [']'])
    have hle := length_le_of_mem_wordsFrom (hw ▸ List.mem_cons_self : w ∈ _)
    intro heq
    rw [heq] at hle
    omega
  · obtain ⟨b, rfl⟩ : ∃ k, b = k + 1 := Nat.exists_eq_succ_of_ne_zero fun hb => by
      subst hb
      exact hbrackets hopen
    obtain ⟨-, hafter⟩ := hv.openAfter?_iff.mp hopen
    rw [untilClose_braced hv hopen] at hw
    obtain ⟨more, ws', hmore, hwords⟩ := exists_more_of_isOpen (by simp [braced])
      (inside_ne_nil b ws) (lexemes_braced_append hv.noEscape _) hv.keeps
      (by simp [hafter, Nesting.isOpen]) (n + ' '.utf8Size)
    obtain ⟨rfl, -⟩ := List.cons.inj (hw.symm.trans hwords)
    simpa using hmore

end

/-! ## Reading keys and braced values -/

/-- The pairs of a body are read off its words. -/
def keyedPairs (ws : List Text) : List (Text × Text) :=
  (pairs ws).filterMap fun (k, v) => (Text.identifier? k).map (·, v)

theorem bodyPairs_eq_keyedPairs (body : Text) :
    entriesWithin.bodyPairs body = keyedPairs ((splitWords body).map Word.text) := rfl

theorem isClosedWord_of_isIdentifier {k : Text} (hk : Text.isIdentifier k = true) :
    IsClosedWord k := by
  obtain ⟨c, t, rfl, hchars⟩ := Text.exists_of_isIdentifier hk
  exact .of_text (by simp) fun d hd => Text.ofChar_of_isNameChar (hchars d hd)

theorem keyedPairs_cons {k : Text} (hk : Text.isIdentifier k = true) (v : Text) (ws : List Text) :
    keyedPairs (k :: v :: ws) = (k, v) :: keyedPairs ws := by
  simp [keyedPairs, pairs, Text.identifier?_of_isIdentifier hk]

/-- **Keys and values in turn.** -/
def bracedWords (ps : List (Text × Text)) : List Text := ps.flatMap fun p => [p.1, braced p.2]

/-- **The keys and braced values inside a literal are read as written** exactly when the brackets
match in every value. -/
theorem keyedPairs_inside_iff : ∀ {ps : List (Text × Text)},
    (∀ p ∈ ps, Text.isIdentifier p.1 = true) → (∀ p ∈ ps, IsBraceable p.2) → ∀ n : Nat,
      keyedPairs ((wordsFrom n (inside 0 (bracedWords ps))).map Word.text) =
          ps.map (fun p => (p.1, braced p.2)) ↔
        ∀ p ∈ ps, Delimiter.bracket.Matched p.2
  | [], _, _, n => by
    rw [bracedWords, List.flatMap_nil, inside_nil]
    exact iff_of_true rfl (by simp)
  | (k, v) :: ps, hkeys, hvalues, n => by
    obtain ⟨hk, hkeys⟩ := List.forall_mem_cons.mp hkeys
    obtain ⟨hv, hvalues⟩ := List.forall_mem_cons.mp hvalues
    have hwords : bracedWords ((k, v) :: ps) = k :: braced v :: bracedWords ps := rfl
    rw [hwords, wordsFrom_inside_cons (isClosedWord_of_isIdentifier hk), List.map_cons,
      List.forall_mem_cons]
    by_cases hbrackets : Delimiter.bracket.Matched v
    · rw [wordsFrom_inside_cons (hv.isClosedWord hbrackets), List.map_cons,
        keyedPairs_cons hk, List.map_cons, List.cons_inj_right]
      exact (keyedPairs_inside_iff hkeys hvalues _).trans (by simp [hbrackets])
    · refine iff_of_false (fun heq => ?_) fun h => hbrackets h.1
      rcases hrest : wordsFrom (n + 1 + Text.byteLength k) (inside 0 (braced v :: bracedWords ps))
        with _ | ⟨w, rest⟩
      · rw [hrest] at heq
        simp [keyedPairs, pairs, Text.identifier?_of_isIdentifier hk, braced] at heq
      · rw [hrest, List.map_cons, keyedPairs_cons hk, List.map_cons] at heq
        have hvalue : w.text = braced v := (Prod.mk.inj (List.cons.inj heq).1).2
        exact ne_braced_of_not_matched hv hbrackets hrest hvalue

/-! ## Entries -/

theorem body?_braced (v : Text) : body? (braced v) = none := by
  have hopen : Text.isBlank '{' = false := by decide
  have hclose : Text.isBlank '}' = false := by decide
  have htrim : Text.trim (braced v) = braced v := by
    simp [Text.trim, Text.trimStart, Text.trimEnd, braced, hopen, hclose]
  rw [body?, htrim]
  rfl

/-- **The entries of a body are braced values** exactly when its pairs are. -/
theorem entries_eq_iff {body : Text} {ps : List (Text × Text)} :
    entries body = ps.map (fun p => .plain p.1 (braced p.2)) ↔
      entriesWithin.bodyPairs body = ps.map fun p => (p.1, braced p.2) := by
  rw [entries, maxNesting, entriesWithin]
  refine ⟨fun h => ?_, fun h => ?_⟩
  · have h := congrArg (List.map fun e => (DictEntry.key e, DictEntry.value e)) h
    rw [List.map_map, List.map_map] at h
    refine (List.map_id _).symm.trans ((List.map_congr_left fun p _ => ?_).trans h)
    obtain ⟨k, v⟩ := p
    cases hbody : body? v <;> simp [hbody, DictEntry.key, DictEntry.value]
  · rw [h, List.map_map]
    exact List.map_congr_left fun p _ => by simp [body?_braced]

/-- **Braced values are read as written exactly when their brackets match.**  Let a literal be
written from keys that are identifiers and values in braces, in which the braces match and there are
no quotes and no backslashes.  Its entries are these keys and values, none of them nested, if and
only if the brackets match too in every value. -/
theorem entries_braced_iff {ps : List (Text × Text)}
    (hkeys : ∀ p ∈ ps, Text.isIdentifier p.1 = true) (hvalues : ∀ p ∈ ps, IsBraceable p.2) :
    (body? (write (bracedWords ps))).map entries =
        some (ps.map fun p => .plain p.1 (braced p.2)) ↔
      ∀ p ∈ ps, Delimiter.bracket.Matched p.2 := by
  rw [body?_write_eq_inside, Option.map_some, Option.some_inj, entries_eq_iff,
    bodyPairs_eq_keyedPairs]
  exact keyedPairs_inside_iff hkeys hvalues 0

/-- Spaces between brackets, and braces within braces. -/
theorem entries_braced_iff_classes :
    let ps := [("pattern".toList, "[a-z] [0-9]".toList), ("port".toList, "\x7b80\x7d".toList)]
    (∀ p ∈ ps, Text.isIdentifier p.1 = true) ∧ (∀ p ∈ ps, IsBraceable p.2) ∧
      (body? (write (bracedWords ps))).map entries =
        some (ps.map fun p => .plain p.1 (braced p.2)) := by
  intro ps
  have hkeys : ∀ p ∈ ps, Text.isIdentifier p.1 = true := by decide
  have hvalues : ∀ p ∈ ps, IsBraceable p.2 := by decide
  exact ⟨hkeys, hvalues, (entries_braced_iff hkeys hvalues).mpr (by decide)⟩

/-- **Braced values are not always read as written**, and the keys depend on them: after a bracket
that is open between braces, the next key belongs to the value. -/
theorem not_entries_braced : ¬∀ ps : List (Text × Text),
    (∀ p ∈ ps, Text.isIdentifier p.1 = true) → (∀ p ∈ ps, IsBraceable p.2) →
      (body? (write (bracedWords ps))).map entries =
        some (ps.map fun p => .plain p.1 (braced p.2)) := by
  intro h
  have hopen := h [("pattern".toList, ['[']), ("port".toList, "80".toList)] (by decide) (by decide)
  have hkeys := congrArg (Option.map (List.map DictEntry.key)) hopen
  exact absurd hkeys (by decide)

end DictLiteral

end TclAtlas
