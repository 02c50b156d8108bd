import TclAtlas.Proofs.ByPosition.Cutting
import TclAtlas.Proofs.Word.Content
import TclAtlas.Proofs.Word.Spacing
import TclAtlas.Word.Form

/-!
# Proofs/ByPosition/Words — words and what they hold, cut out by position

A word is cut out of its line from where its first token starts to where its last one ends, the
content of a group up to where the closing delimiter starts, and a word without its wrapping from
behind its first byte to before its last one.  These positions come from tokens, and of tokens only
the positions in the text that was lexed are known; so what is shown is that they are positions of
the text that is cut (`ByPosition.splitWords_eq`, `ByPosition.content?_eq`, `ByPosition.unwrap_eq`).
-/

namespace TclAtlas.ByPosition

/-! ## Words -/

/-- The word between two positions of a text. -/
def word (t : Text) (stop start : Nat) : Except Failure Word :=
  return ⟨← cut t start stop, kept start⟩

/-- The words of a text: `start` is where the word that has begun starts, if one has, `stop` is
where its last token ends, and the tokens are those to come. -/
def gather (t : Text) (start : Option Nat) (stop : Nat) (n : Nesting) :
    List Token → Except Failure (List Word)
  | [] => start.toList.mapM (word t stop)
  | k :: ks =>
    if k.kind = .whitespace ∧ n.isOpen = false then do
      let ended ← start.toList.mapM (word t stop)
      return ended ++ (← gather t none stop n ks)
    else
      let first := kept k.start
      gather t (some (start.getD first)) (first + Text.byteLength k.text) (n.after k.kind) ks

/-- **The words of a text.** -/
def splitWords (t : Text) : Except Failure (List Word) := gather t none 0 .flat (tokenize t)

theorem mapM_word {t : Text} (ht : Addressable t) {w : Option Word} {stop : Nat} {p u : Text}
    (hp : t = p ++ u) (hw : ∀ v ∈ w, ∃ b, p = b ++ v.text ∧ v.start = Text.byteLength b ∧
      stop = Text.byteLength p) : (w.map Word.start).toList.mapM (word t stop) = pure w.toList := by
  rcases w with _ | v
  · rfl
  obtain ⟨b, rfl, hstart, rfl⟩ := hw v rfl
  have hcut : cut t (Text.byteLength b) (Text.byteLength (b ++ v.text)) = pure v.text := by
    rw [hp, List.append_assoc, Text.byteLength_append]
    exact cut_middle b v.text u
  have hkept : kept (Text.byteLength b) = Text.byteLength b :=
    kept_byteLength (ht.sublist (by simp [hp]))
  rw [Option.map_some, Option.toList_some, List.mapM_cons, List.mapM_nil, word, hstart, hcut, hkept,
    ← hstart]
  rfl

/-- **A word that has begun** stands before the tokens to come, and ends where they start. -/
theorem gather_eq {t : Text} (ht : Addressable t) : ∀ (ls : List Lexeme) (w : Option Word)
    (stop : Nat) (n : Nesting) (p : Text), t = p ++ ls.flatMap Lexeme.text →
    (∀ v ∈ w, ∃ b, p = b ++ v.text ∧ v.start = Text.byteLength b ∧ stop = Text.byteLength p) →
    gather t (w.map Word.start) stop n (Token.layout (Text.byteLength p) ls) =
      pure (Word.gather w n (Token.layout (Text.byteLength p) ls))
  | [], w, stop, n, p, hp, hw => mapM_word ht hp hw
  | l :: ls, w, stop, n, p, hp, hw => by
    have hnext : t = (p ++ l.text) ++ ls.flatMap Lexeme.text := by simp [hp]
    have hstart : kept (Text.byteLength p) = Text.byteLength p :=
      kept_byteLength (ht.sublist (by simp [hp]))
    rw [Token.layout, gather, Word.gather, ← Text.byteLength_append]
    split
    · have hrest := gather_eq ht ls none stop n (p ++ l.text) hnext (by simp)
      rw [mapM_word ht hp hw, pure_bind, ← Option.map_none, hrest]
      rfl
    · have hword : some ((w.map Word.start).getD (kept (Text.byteLength p))) =
          (some (Word.extend w ⟨l, Text.byteLength p⟩)).map Word.start := by
        rcases w with _ | v <;> simp [Word.extend, hstart]
      simp only [hword]
      rw [hstart, ← Text.byteLength_append]
      refine gather_eq ht ls _ _ _ (p ++ l.text) hnext fun v hv => ?_
      obtain rfl : Word.extend w ⟨l, Text.byteLength p⟩ = v := Option.some.inj hv
      rcases w with _ | v
      · exact ⟨p, rfl, rfl, rfl⟩
      · obtain ⟨b, rfl, hb, -⟩ := hw v rfl
        exact ⟨b, by simp [Word.extend], hb, rfl⟩

/-- **Words are cut out where they stand.** -/
theorem splitWords_eq {t : Text} (ht : Addressable t) :
    splitWords t = pure (TclAtlas.splitWords t) :=
  gather_eq ht (lexemes t) none 0 .flat [] (lexemes_flatten t).symm (by simp)

section

variable {t : Text} {w : Word} (hw : w ∈ TclAtlas.splitWords t)

include hw

theorem sublist_of_mem_splitWords : w.text.Sublist t := by
  obtain ⟨-, before, after, ht, -⟩ := (splitWords_spaced t).exists_around hw
  rw [ht]
  exact (List.sublist_append_left ..).trans (List.sublist_append_right ..)

/-- What stands from a word on. -/
theorem cut_from_word : cut t w.start (Text.byteLength t) = pure (Text.dropBytes w.start t) := by
  obtain ⟨-, before, after, ht, hstart, -⟩ := (splitWords_spaced t).exists_around hw
  rw [Nat.zero_add] at hstart
  rw [hstart, ht, cut_from, Text.dropBytes_byteLength_append]

/-- What stands behind a word. -/
theorem cut_behind_word :
    cut t w.finish (Text.byteLength t) = pure (Text.dropBytes w.finish t) := by
  obtain ⟨-, before, after, ht, hstart, -⟩ := (splitWords_spaced t).exists_around hw
  have hfinish : w.finish = Text.byteLength (before ++ w.text) := by
    rw [Word.finish, hstart, Nat.zero_add, Text.byteLength_append]
  rw [hfinish, ht, ← List.append_assoc, cut_from, Text.dropBytes_byteLength_append]

/-- **Where a word starts and ends** can be kept. -/
theorem kept_splitWords (ht : Addressable t) :
    kept w.start = w.start ∧ kept w.finish = w.finish := by
  obtain ⟨-, before, after, htext, hstart, -⟩ := (splitWords_spaced t).exists_around hw
  refine kept_of_finish_le ht (Nat.le_add_right ..) ?_
  rw [Word.finish, hstart, htext, Text.byteLength_append, Text.byteLength_append]
  omega

end

/-! ## Groups -/

/-- Where the group closes, if it does: `opened` counts the groups that are open, the group itself
among them. -/
def closeAt? (d : Delimiter) (opened : Nat) (quoted : Bool) :
    List Token → Except Failure (Option Nat)
  | [] => return none
  | k :: ks =>
    if k.kind = .quote ∧ d.heedsQuotes then closeAt? d opened (!quoted) ks
    else if k.kind = d.opens ∧ quoted = false then closeAt? d (opened + 1) quoted ks
    else if k.kind = d.closes ∧ quoted = false then do
      let left ← lower opened 1
      if left = 0 then return some (kept k.start) else closeAt? d left quoted ks
    else closeAt? d opened quoted ks

/-- **The content of a group**, or `none` for a word that does not open one. -/
def content? (d : Delimiter) : Text → Except Failure (Option Text)
  | [] => return none
  | c :: t =>
    if c = d.openChar then do
      match ← closeAt? d 1 false (tokenize t) with
      | some stop => return some (← cut t 0 stop)
      | none => return some t
    else return none

section

open Delimiter

variable {d : Delimiter} {l : Lexeme} {ls : List Lexeme} {depth depth' : Nat}
  {quoted quoted' : Bool}

/-- A lexeme that does not end the group is counted, and the count does not fall below one. -/
theorem closeAt?_cons (h : ¬ d.EndsAt ⟨depth, quoted⟩ l)
    (hafter : Depth.after d ⟨depth, quoted⟩ l = ⟨depth', quoted'⟩) (start : Nat) (ks : List Token) :
    closeAt? d (depth + 1) quoted (⟨l, start⟩ :: ks) = closeAt? d (depth' + 1) quoted' ks := by
  by_cases hquote : l.kind = .quote ∧ d.heedsQuotes = true
  · rw [Depth.after, if_pos hquote] at hafter
    obtain ⟨rfl, rfl⟩ := Depth.mk_natCast_eq_iff.mp hafter
    rw [closeAt?, if_pos hquote]
  rw [Depth.after, if_neg hquote] at hafter
  rw [closeAt?, if_neg hquote]
  cases quoted with
  | true =>
    obtain ⟨rfl, rfl⟩ := Depth.mk_natCast_eq_iff.mp hafter
    rw [if_neg (by simp), if_neg (by simp)]
  | false =>
    rw [if_neg (by simp)] at hafter
    by_cases hopens : l.kind = d.opens
    · rw [if_pos hopens] at hafter
      obtain ⟨rfl, rfl⟩ := Depth.mk_natCast_eq_iff.mp hafter
      rw [if_pos ⟨hopens, rfl⟩]
    rw [if_neg hopens] at hafter
    rw [if_neg fun hk => hopens hk.1]
    by_cases hcloses : l.kind = d.closes
    · obtain ⟨m, rfl⟩ : ∃ m, depth = m + 1 := by
        refine Nat.exists_eq_succ_of_ne_zero fun hn => h ⟨hcloses, ?_⟩
        rw [hn]
        rfl
      rw [if_pos hcloses, Int.natCast_succ, Int.add_sub_cancel] at hafter
      obtain ⟨rfl, rfl⟩ := Depth.mk_natCast_eq_iff.mp hafter
      rw [if_pos ⟨hcloses, rfl⟩, lower_of_le (Nat.le_add_left 1 _), pure_bind,
        Nat.add_sub_cancel, if_neg (Nat.succ_ne_zero m)]
    · rw [if_neg hcloses] at hafter
      obtain ⟨rfl, rfl⟩ := Depth.mk_natCast_eq_iff.mp hafter
      rw [if_neg fun hk => hcloses hk.1]

/-- **As long as the group stays open**, the count is one more than the depth. -/
theorem closeAt?_append (ms : List Lexeme) : ∀ {ls : List Lexeme} {depth : Nat} {quoted : Bool}
    (n : Nat), d.StaysOpen ⟨depth, quoted⟩ ls →
    Depth.afterAll d ⟨depth, quoted⟩ ls = ⟨depth', quoted'⟩ →
    closeAt? d (depth + 1) quoted (Token.layout n (ls ++ ms)) = closeAt? d (depth' + 1) quoted'
      (Token.layout (n + Text.byteLength (ls.flatMap Lexeme.text)) ms)
  | [], depth, quoted, n, _, hafter => by
    obtain ⟨rfl, rfl⟩ := Depth.mk_natCast_eq_iff.mp hafter
    rfl
  | l :: ls, depth, quoted, n, h, hafter => by
    obtain ⟨hl, hls⟩ := staysOpen_cons.mp h
    obtain ⟨m, q, hstep, -⟩ := exists_after hl
    rw [hstep] at hls
    have hrest : Depth.afterAll d ⟨m, q⟩ ls = ⟨depth', quoted'⟩ := hstep ▸ hafter
    rw [List.cons_append, Token.layout, closeAt?_cons hl hstep, closeAt?_append ms _ hls hrest,
      List.flatMap_cons, Text.byteLength_append, Nat.add_assoc]

/-- **A group is cut out up to where it closes**, and no count of its delimiters falls below
zero. -/
theorem content?_eq (d : Delimiter) {w : Text} (hw : Addressable w) :
    content? d w = pure (d.content? w) := by
  rcases w with _ | ⟨c, t⟩
  · rfl
  by_cases hc : c = d.openChar
  · have ht : Addressable t := hw.sublist (List.sublist_cons_self c t)
    have hcontent : d.content? (c :: t) = some (d.untilClose 0 false (lexemes t)) := if_pos hc
    have hflat := lexemes_flatten t
    rw [content?, if_pos hc, hcontent, tokenize]
    rcases d.staysOpen_or_exists (lexemes t) .zero with
      hopen | ⟨before, l, after, hlexemes, hopen, hends⟩
    · obtain ⟨depth, quoted, hdepth, hall⟩ := StaysOpen.exists_depth (n := 0) hopen
      have hclose := closeAt?_append [] 0 hopen hdepth
      have huntil : d.untilClose 0 false (lexemes t) = t := by
        simpa [untilClose, hflat] using hall []
      rw [List.append_nil, Nat.zero_add] at hclose
      rw [hclose, huntil]
      rfl
    · have hclose := closeAt?_append (l :: after) 0 hopen hends.2
      have hcut : cut t 0 (Text.byteLength (before.flatMap Lexeme.text)) =
          pure (before.flatMap Lexeme.text) := by
        rw [← hflat, hlexemes, List.flatMap_append]
        exact cut_upTo ..
      have hkept : kept (Text.byteLength (before.flatMap Lexeme.text)) =
          Text.byteLength (before.flatMap Lexeme.text) := by
        refine kept_byteLength (ht.sublist ?_)
        rw [← hflat, hlexemes, List.flatMap_append]
        exact List.sublist_append_left ..
      rw [hlexemes, untilClose_append_of_endsAt hopen hends, hclose, Token.layout, closeAt?,
        if_neg (by simp [hends.1]), if_neg (by simp [hends.1]), if_pos ⟨hends.1, rfl⟩,
        lower_of_le Nat.le.refl, pure_bind, if_pos rfl, pure_bind, Nat.zero_add, hkept]
      simp only [hcut]
      rfl
  · rw [content?, if_neg hc, Delimiter.content?, if_neg hc]

end

/-! ## Wrapping -/

/-- Whether a word stands between two of the given characters. -/
def isWrapped (w : Text) (opening closing : Char) : Bool :=
  w.head? == some opening && w.getLast? == some closing

/-- **A word without one layer of wrapping.** -/
def unwrap (w : Text) : Except Failure Text :=
  if 2 ≤ Text.byteLength w ∧ (isWrapped w '{' '}' || isWrapped w '"' '"') then do
    cut w 1 (← lower (Text.byteLength w) 1)
  else return w

/-- What stands between two characters of one byte. -/
theorem cut_wrapped {o c : Char} (ho : o.utf8Size = 1) (hc : c.utf8Size = 1) (t : Text) :
    (do cut (o :: (t ++ [c])) 1 (← lower (Text.byteLength (o :: (t ++ [c]))) 1)) = pure t := by
  have hlength : Text.byteLength (o :: (t ++ [c])) = 1 + Text.byteLength t + 1 := by
    simp only [Text.byteLength_cons, Text.byteLength_append, Text.byteLength_nil, ho, hc]
    omega
  rw [hlength, lower_of_le (Nat.le_add_left 1 _), pure_bind, Nat.add_sub_cancel]
  exact cut_eq_ok_iff.mpr ⟨[o], [c], rfl, by simp [ho], rfl⟩

/-- A word between two characters has them and what is between them. -/
theorem between?_eq_some_iff {o c : Char} {w t : Text} :
    Text.between? o c w = some t ↔ w = o :: (t ++ [c]) := by
  rcases w with _ | ⟨d, w⟩
  · simp [Text.between?]
  · rw [Text.between?]
    constructor
    · intro h
      split at h
      · next hw =>
        obtain ⟨rfl, hlast⟩ := hw
        obtain ⟨init, rfl⟩ := List.getLast?_eq_some_iff.mp hlast
        rw [List.dropLast_concat] at h
        rw [Option.some.inj h]
      · exact absurd h (by simp)
    · intro h
      obtain ⟨rfl, rfl⟩ := List.cons.inj h
      simp

/-- **A wrapped word** of two bytes at least has something between its wrapping, if only the empty
text: a quote alone is not its own closing quote. -/
theorem isWrapped_iff {o c : Char} (ho : o.utf8Size = 1) {w : Text} :
    2 ≤ Text.byteLength w ∧ isWrapped w o c = true ↔ ∃ t, Text.between? o c w = some t := by
  simp only [between?_eq_some_iff, isWrapped, Bool.and_eq_true, beq_iff_eq]
  constructor
  · rintro ⟨hlength, hhead, hlast⟩
    obtain ⟨w, rfl⟩ := List.head?_eq_some_iff.mp hhead
    rcases List.eq_nil_or_concat w with rfl | ⟨t, d, rfl⟩
    · simp [ho] at hlength
    · rw [List.concat_eq_append, ← List.cons_append, List.getLast?_concat] at hlast
      exact ⟨t, by rw [List.concat_eq_append, Option.some.inj hlast]⟩
  · rintro ⟨t, rfl⟩
    have hpos := c.utf8Size_pos
    refine ⟨?_, rfl, by rw [← List.cons_append, List.getLast?_concat]⟩
    simp only [Text.byteLength_cons, Text.byteLength_append, ho]
    omega

/-- **A word is unwrapped** at its first and last bytes, which are characters of their own. -/
theorem unwrap_eq (w : Text) : unwrap w = pure (Text.unwrap w) := by
  have hwrapped : (2 ≤ Text.byteLength w ∧ (isWrapped w '{' '}' || isWrapped w '"' '"') = true) ↔
      (∃ t, Text.between? '{' '}' w = some t) ∨ ∃ t, Text.between? '"' '"' w = some t := by
    rw [← isWrapped_iff rfl, ← isWrapped_iff rfl, Bool.or_eq_true, and_or_left]
  rw [unwrap, Text.unwrap]
  rcases hbraced : Text.between? '{' '}' w with _ | t
  · rcases hquoted : Text.between? '"' '"' w with _ | t
    · rw [if_neg fun h => by simpa [hbraced, hquoted] using hwrapped.mp h]
      rfl
    · rw [if_pos (hwrapped.mpr (Or.inr ⟨t, hquoted⟩))]
      obtain rfl := between?_eq_some_iff.mp hquoted
      exact cut_wrapped rfl rfl t
  · rw [if_pos (hwrapped.mpr (Or.inl ⟨t, hbraced⟩))]
    obtain rfl := between?_eq_some_iff.mp hbraced
    exact cut_wrapped rfl rfl t

end TclAtlas.ByPosition
