import TclAtlas.Proofs.Word.Closed
import TclAtlas.Proofs.Word.Tokenization
import Mathlib.Data.List.Infix

/-!
# Proofs/Word/Content — where a group ends

Within a group, opening and closing delimiters that are neither escaped nor quoted are counted
against each other (`Delimiter.Depth`); as the count is an integer, nothing keeps it from falling
below zero but the texts themselves.  A group ends at the first closing delimiter that is met at
depth zero, and the depth never falls below zero before (`Delimiter.StaysOpen.exists_depth`).

Hence the content of a group that is closed is balanced (`Delimiter.Balanced`), and any balanced
text is the content of the group that it is put in, whatever follows
(`Delimiter.content_ends_at_first_close`).
-/

namespace TclAtlas.Delimiter

variable {d : Delimiter} {l : Lexeme} {ls ms : List Lexeme}

/-! ## Counting delimiters -/

/-- **How deep a place within a group is**: how many more delimiters open groups than close them,
and whether a quoted string is open. -/
structure Depth where
  level : Int
  quoted : Bool
  deriving DecidableEq

namespace Depth

theorem mk_natCast_eq_iff {m n : Nat} {q r : Bool} :
    (⟨m, q⟩ : Depth) = ⟨n, r⟩ ↔ m = n ∧ q = r := by
  rw [mk.injEq, Int.natCast_inj]

/-- The depth right behind the delimiter that opens the group. -/
def zero : Depth := ⟨0, false⟩

/-- **The depth after a lexeme.**  Quotes count where delimiters heed them, and delimiters count
outside quoted strings. -/
def after (d : Delimiter) (p : Depth) (l : Lexeme) : Depth :=
  if l.kind = .quote ∧ d.heedsQuotes then { p with quoted := !p.quoted }
  else if p.quoted then p
  else if l.kind = d.opens then { p with level := p.level + 1 }
  else if l.kind = d.closes then { p with level := p.level - 1 }
  else p

/-- The depth after several lexemes. -/
def afterAll (d : Delimiter) (p : Depth) (ls : List Lexeme) : Depth := ls.foldl (after d) p

@[simp] theorem afterAll_append (p : Depth) (ls ms : List Lexeme) :
    p.afterAll d (ls ++ ms) = (p.afterAll d ls).afterAll d ms := List.foldl_append

end Depth

/-- **A lexeme ends the group** when it closes one at depth zero. -/
def EndsAt (d : Delimiter) (p : Depth) (l : Lexeme) : Prop := l.kind = d.closes ∧ p = .zero

/-- **The group stays open** all through the lexemes. -/
def StaysOpen (d : Delimiter) (p : Depth) (ls : List Lexeme) : Prop :=
  ∀ before l after, ls = before ++ l :: after → ¬ d.EndsAt (p.afterAll d before) l

@[simp] theorem closes_ne_opens (d : Delimiter) : d.closes ≠ d.opens := by cases d <;> decide

@[simp] theorem closes_ne_quote (d : Delimiter) : d.closes ≠ .quote := by cases d <;> decide

theorem ofChar_closeChar (d : Delimiter) : LexemeKind.ofChar d.closeChar = d.closes := by
  cases d <;> decide

theorem runs_closes (d : Delimiter) : d.closes.runs = false := by cases d <;> rfl

theorem text_of_closes {t : Text} (hl : l ∈ lexemes t) (hkind : l.kind = d.closes) :
    l.text = [d.closeChar] := by
  have hmatches := Lexeme.fits_iff.mp ((lexed_lexemes t).fits l hl)
  rw [hkind] at hmatches
  cases d <;> exact hmatches

/-! ## Groups that stay open -/

theorem staysOpen_nil (d : Delimiter) (p : Depth) : d.StaysOpen p [] := by
  intro before l after h
  exact absurd h (by simp)

theorem staysOpen_cons {p : Depth} :
    d.StaysOpen p (l :: ls) ↔ ¬ d.EndsAt p l ∧ d.StaysOpen (p.after d l) ls := by
  constructor
  · intro h
    exact ⟨h [] l ls rfl, fun before m after heq => h (l :: before) m after (by rw [heq]; rfl)⟩
  · rintro ⟨hl, hls⟩ before m after heq
    rcases List.cons_eq_append_iff.mp heq with ⟨rfl, heq⟩ | ⟨rest, rfl, heq⟩
    · obtain ⟨rfl, -⟩ := List.cons.inj heq
      exact hl
    · exact hls rest m after (List.cons.inj heq).2

theorem StaysOpen.left {p : Depth} (h : d.StaysOpen p (ls ++ ms)) : d.StaysOpen p ls :=
  fun before l after heq => h before l (after ++ ms) (by simp [heq])

/-- **A group stays open, or there is a first lexeme that ends it.** -/
theorem staysOpen_or_exists (d : Delimiter) : ∀ (ls : List Lexeme) (p : Depth), d.StaysOpen p ls ∨
    ∃ before l after, ls = before ++ l :: after ∧ d.StaysOpen p before ∧
      d.EndsAt (p.afterAll d before) l
  | [], p => Or.inl (d.staysOpen_nil p)
  | l :: ls, p => by
    by_cases hl : d.EndsAt p l
    · exact Or.inr ⟨[], l, ls, rfl, d.staysOpen_nil p, hl⟩
    rcases d.staysOpen_or_exists ls (p.after d l) with h | ⟨before, m, after, rfl, hopen, hends⟩
    · exact Or.inl (staysOpen_cons.mpr ⟨hl, h⟩)
    · exact Or.inr ⟨l :: before, m, after, rfl, staysOpen_cons.mpr ⟨hl, hopen⟩, hends⟩

/-- A lexeme that does not end the group adds its text to the content, and leaves the depth at or
above zero. -/
theorem exists_after {n : Nat} {q : Bool} (h : ¬ d.EndsAt ⟨n, q⟩ l) : ∃ (n' : Nat) (q' : Bool),
    Depth.after d ⟨n, q⟩ l = ⟨n', q'⟩ ∧
      ∀ ms, d.untilClose n q (l :: ms) = l.text ++ d.untilClose n' q' ms := by
  by_cases hquote : l.kind = .quote ∧ d.heedsQuotes = true
  · exact ⟨n, !q, by simp [Depth.after, hquote], fun ms => by simp [untilClose, hquote]⟩
  cases q with
  | true => exact ⟨n, true, by simp [Depth.after, hquote], fun ms => by simp [untilClose, hquote]⟩
  | false =>
    by_cases hopens : l.kind = d.opens
    · refine ⟨n + 1, false, ?_, fun ms => ?_⟩
      · simp [Depth.after, hopens ▸ hquote, hopens]
      · simp [untilClose, hopens ▸ hquote, hopens]
    by_cases hcloses : l.kind = d.closes
    · obtain ⟨m, rfl⟩ : ∃ m, n = m + 1 := by
        refine Nat.exists_eq_succ_of_ne_zero fun hn => h ⟨hcloses, ?_⟩
        rw [hn]
        rfl
      exact ⟨m, false, by simp [Depth.after, hcloses], fun ms => by simp [untilClose, hcloses]⟩
    · refine ⟨n, false, ?_, fun ms => ?_⟩
      · simp [Depth.after, hquote, hopens, hcloses]
      · simp [untilClose, hquote, hopens, hcloses]

/-- **As long as a group stays open**, everything belongs to its content, and the depth never falls
below zero. -/
theorem StaysOpen.exists_depth : ∀ {ls : List Lexeme} {n : Nat} {q : Bool},
    d.StaysOpen ⟨n, q⟩ ls → ∃ (n' : Nat) (q' : Bool), Depth.afterAll d ⟨n, q⟩ ls = ⟨n', q'⟩ ∧
      ∀ ms, d.untilClose n q (ls ++ ms) = ls.flatMap Lexeme.text ++ d.untilClose n' q' ms
  | [], n, q, _ => ⟨n, q, rfl, fun _ => rfl⟩
  | l :: ls, n, q, h => by
    obtain ⟨hl, hls⟩ := staysOpen_cons.mp h
    obtain ⟨n', q', hafter, hcontent⟩ := exists_after hl
    rw [hafter] at hls
    obtain ⟨n'', q'', hafterAll, hcontents⟩ := hls.exists_depth
    refine ⟨n'', q'', ?_, fun ms => ?_⟩
    · rw [← hafterAll, ← hafter]
      rfl
    · rw [List.cons_append, hcontent, hcontents, List.flatMap_cons, List.append_assoc]

theorem StaysOpen.level_nonneg (h : d.StaysOpen .zero ls) {before : List Lexeme}
    (hbefore : before <+: ls) : 0 ≤ (Depth.zero.afterAll d before).level := by
  obtain ⟨after, rfl⟩ := hbefore
  obtain ⟨n, q, hdepth, -⟩ := StaysOpen.exists_depth (n := 0) h.left
  rw [show Depth.zero.afterAll d before = ⟨n, q⟩ from hdepth]
  exact Int.natCast_nonneg n

/-- A group whose depth does not fall below zero stays open. -/
theorem staysOpen_of_level_nonneg
    (h : ∀ before, before <+: ls → 0 ≤ (Depth.zero.afterAll d before).level) :
    d.StaysOpen .zero ls := by
  rintro before l after rfl ⟨hcloses, hzero⟩
  have hbelow := h (before ++ [l]) ⟨after, by simp⟩
  rw [Depth.afterAll_append, hzero] at hbelow
  simp [Depth.afterAll, Depth.after, Depth.zero, hcloses] at hbelow

/-- **The content of a group is a beginning** of what follows the opening delimiter. -/
theorem untilClose_isPrefix (d : Delimiter) : ∀ (ls : List Lexeme) (depth : Nat) (quoted : Bool),
    d.untilClose depth quoted ls <+: ls.flatMap Lexeme.text
  | [], _, _ => List.prefix_rfl
  | l :: ls, depth, quoted => by
    have ih := d.untilClose_isPrefix ls
    rw [untilClose.eq_def, List.flatMap_cons]
    dsimp only
    repeat' split
    all_goals first
      | exact (List.prefix_append_right_inj l.text).mpr (ih ..)
      | exact List.nil_prefix

theorem sublist_of_content? {w c : Text} (h : d.content? w = some c) : c.Sublist w := by
  rcases w with _ | ⟨o, t⟩
  · exact absurd h (by simp [Delimiter.content?])
  rw [Delimiter.content?] at h
  split at h
  · obtain rfl := Option.some.inj h
    have hprefix := d.untilClose_isPrefix (lexemes t) 0 false
    rw [lexemes_flatten] at hprefix
    exact hprefix.sublist.trans (List.sublist_cons_self o t)
  · exact absurd h (by simp)

/-! ## Balanced contents -/

/-- **A balanced text**: its depth never falls below zero and comes back to it, with no quoted
string open, and it does not end in a backslash that escapes nothing. -/
structure Balanced (d : Delimiter) (t : Text) : Prop where
  level_nonneg : ∀ before, before <+: lexemes t → 0 ≤ (Depth.zero.afterAll d before).level
  closed : Depth.zero.afterAll d (lexemes t) = .zero
  last : (lexemes t).getLast?.map Lexeme.kind ≠ some .backslash

/-- **The content ends** where the group does. -/
theorem untilClose_append_of_endsAt {before after : List Lexeme} (hopen : d.StaysOpen .zero before)
    (hends : d.EndsAt (Depth.zero.afterAll d before) l) :
    d.untilClose 0 false (before ++ l :: after) = before.flatMap Lexeme.text := by
  obtain ⟨n, q, hdepth, hcontent⟩ := StaysOpen.exists_depth (n := 0) hopen
  obtain ⟨hcloses, hzero⟩ := hends
  obtain ⟨rfl, rfl⟩ : n = 0 ∧ q = false :=
    Depth.mk_natCast_eq_iff.mp (hdepth.symm.trans hzero)
  rw [hcontent, untilClose]
  simp [hcloses]

/-- **A balanced text ends before a closing delimiter.** -/
theorem Balanced.lexemes_append {t : Text} (h : d.Balanced t) (tail : Text) :
    lexemes (t ++ d.closeChar :: tail) =
      lexemes t ++ ⟨d.closes, [d.closeChar]⟩ :: lexemes tail := by
  have hchar : d.closeChar ≠ '\\' := by cases d <;> decide
  have hends : EndsBefore (lexemes t) (d.closeChar :: tail) := by
    refine fun k hk => ⟨fun heq => h.last (heq ▸ hk), fun hruns c hc heq => ?_⟩
    obtain rfl : d.closeChar = c := by simpa using hc
    rw [← heq, d.ofChar_closeChar, d.runs_closes] at hruns
    exact absurd hruns (by decide)
  rw [lexemes_append_of_endsBefore hends,
    lexemes_cons_of_single hchar (d.ofChar_closeChar ▸ d.runs_closes), d.ofChar_closeChar]

theorem Balanced.content? {t : Text} (h : d.Balanced t) (tail : Text) :
    d.content? (d.openChar :: (t ++ d.closeChar :: tail)) = some t := by
  rw [Delimiter.content?, if_pos rfl, h.lexemes_append,
    untilClose_append_of_endsAt (staysOpen_of_level_nonneg h.level_nonneg) ⟨rfl, h.closed⟩,
    lexemes_flatten]

/-- Ordinary characters and white space leave the depth as it is. -/
theorem afterAll_of_runs (d : Delimiter) (p : Depth) : ∀ {ls : List Lexeme},
    (∀ l ∈ ls, l.kind.runs = true) → p.afterAll d ls = p
  | [], _ => rfl
  | l :: ls, h => by
    have hafter : p.after d l = p := by
      have hruns := h l List.mem_cons_self
      have hquote : l.kind ≠ .quote := fun hk => absurd (hk ▸ hruns) (by decide)
      have hopens : l.kind ≠ d.opens := fun hk => absurd (hk ▸ hruns) (by cases d <;> decide)
      have hcloses : l.kind ≠ d.closes := fun hk => absurd (hk ▸ hruns) (by simp [d.runs_closes])
      simp [Depth.after, hquote, hopens, hcloses]
    rw [Depth.afterAll, List.foldl_cons, hafter]
    exact afterAll_of_runs d p fun m hm => h m (List.mem_cons_of_mem l hm)

/-- **A text without delimiters, quotes and backslashes is balanced.** -/
theorem balanced_of_runs {t : Text} (ht : ∀ c ∈ t, (LexemeKind.ofChar c).runs = true) :
    d.Balanced t := by
  have hruns := runs_of_mem_lexemes ht
  refine ⟨fun before hbefore => ?_, d.afterAll_of_runs .zero hruns, fun hlast => ?_⟩
  · rw [d.afterAll_of_runs .zero fun l hl => hruns l (hbefore.subset hl)]
    exact Int.le_refl 0
  · obtain ⟨l, hl, hkind⟩ := Option.map_eq_some_iff.mp hlast
    exact absurd (hruns l (List.mem_of_getLast? hl)) (by simp [hkind, LexemeKind.runs])

/-- **What stands before the end of a group is balanced.** -/
theorem balanced_of_endsAt {t : Text} {before after : List Lexeme}
    (ht : lexemes t = before ++ l :: after) (hopen : d.StaysOpen .zero before)
    (hends : d.EndsAt (Depth.zero.afterAll d before) l) :
    d.Balanced (before.flatMap Lexeme.text) := by
  have hlexed : Lexed (before ++ l :: after) := ht ▸ lexed_lexemes t
  have hbefore : lexemes (before.flatMap Lexeme.text) = before := hlexed.left.lexemes_flatMap
  refine ⟨fun b hb => hopen.level_nonneg (hbefore ▸ hb), hbefore.symm ▸ hends.2, ?_⟩
  rw [hbefore]
  intro hlast
  -- a backslash that escapes nothing has a line feed after it, and not a delimiter
  obtain ⟨m, hm, hkind⟩ := Option.map_eq_some_iff.mp hlast
  have hfeed := (hlexed.precedes hm rfl).2 hkind
  rw [text_of_closes (t := t) (by simp [ht]) hends.1] at hfeed
  revert hfeed
  cases d <;> decide

instance (d : Delimiter) (t : Text) : Decidable (d.Balanced t) :=
  decidable_of_iff ((∀ before ∈ (lexemes t).inits, 0 ≤ (Depth.zero.afterAll d before).level) ∧
      Depth.zero.afterAll d (lexemes t) = .zero ∧
      (lexemes t).getLast?.map Lexeme.kind ≠ some .backslash)
    ⟨fun h => ⟨fun b hb => h.1 b ((List.mem_inits ..).mpr hb), h.2.1, h.2.2⟩,
      fun h => ⟨fun b hb => h.level_nonneg b ((List.mem_inits ..).mp hb), h.closed, h.last⟩⟩

/-- **A group ends at the first delimiter that closes it**, and what it holds is a beginning of what
follows the opening delimiter.  Either some closing delimiter is met at depth zero: then the group
ends at the first such one, and its content is balanced.  Or there is none, and the content is all
that follows.  The depth is never below zero before the end.  Conversely, a balanced text between
delimiters is the content, whatever follows. -/
theorem content_ends_at_first_close (d : Delimiter) :
    (∀ t, ∃ c u, d.content? (d.openChar :: t) = some c ∧ t = c ++ u ∧
      ((∃ before l after, lexemes t = before ++ l :: after ∧ c = before.flatMap Lexeme.text ∧
          u = d.closeChar :: after.flatMap Lexeme.text ∧
          d.EndsAt (Depth.zero.afterAll d before) l ∧ d.StaysOpen .zero before ∧
          (∀ b, b <+: before → 0 ≤ (Depth.zero.afterAll d b).level) ∧ d.Balanced c) ∨
        u = [] ∧ d.StaysOpen .zero (lexemes t) ∧
          ∀ b, b <+: lexemes t → 0 ≤ (Depth.zero.afterAll d b).level)) ∧
    ∀ c, d.Balanced c → ∀ tail, d.content? (d.openChar :: (c ++ d.closeChar :: tail)) = some c := by
  refine ⟨fun t => ?_, fun c hc tail => hc.content? tail⟩
  have hcontent : d.content? (d.openChar :: t) = some (d.untilClose 0 false (lexemes t)) :=
    if_pos rfl
  have hflat := lexemes_flatten t
  rcases d.staysOpen_or_exists (lexemes t) .zero with hopen | ⟨before, l, after, ht, hopen, hends⟩
  · obtain ⟨n, q, -, hall⟩ := StaysOpen.exists_depth (n := 0) hopen
    have huntil : d.untilClose 0 false (lexemes t) = t := by
      simpa [untilClose, hflat] using hall []
    exact ⟨t, [], by rw [hcontent, huntil], by simp,
      Or.inr ⟨rfl, hopen, fun b hb => hopen.level_nonneg hb⟩⟩
  · have hclose : l.text = [d.closeChar] := text_of_closes (t := t) (by simp [ht]) hends.1
    refine ⟨before.flatMap Lexeme.text, d.closeChar :: after.flatMap Lexeme.text, ?_, ?_,
      Or.inl ⟨before, l, after, ht, rfl, rfl, hends, hopen, fun b hb => hopen.level_nonneg hb,
        balanced_of_endsAt ht hopen hends⟩⟩
    · rw [hcontent, ht, untilClose_append_of_endsAt hopen hends]
    · rw [← hflat, ht, List.flatMap_append, List.flatMap_cons, hclose]
      rfl

/-- Escaped and quoted brackets in a group, and more of both behind it. -/
theorem content_ends_at_first_close_quoted :
    let c := "dict create x \\] y \"]\" z [list \\\"]".toList
    Delimiter.bracket.Balanced c ∧
      Delimiter.bracket.content? ('[' :: (c ++ ']' :: "\\]\"] ]".toList)) = some c := by
  intro c
  have hc : Delimiter.bracket.Balanced c := by decide +kernel
  exact ⟨hc, (content_ends_at_first_close .bracket).2 c hc _⟩

end TclAtlas.Delimiter
