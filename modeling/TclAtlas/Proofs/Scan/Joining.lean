import TclAtlas.Proofs.Scan.Commands
import TclAtlas.Proofs.Scan.Scopes
import TclAtlas.Proofs.Scan.Values
import TclAtlas.Proofs.Word.Names

/-!
# Proofs/Scan/Joining — the lines joined into the values of a file

A line joins lines only when it binds a variable, and it binds only when it is not joined itself
(`ScanState.step_binds`).  So the lines joined into one value end before the next line that binds,
and wherever a scan stands the lines joined so far end with those of one of its bindings
(`JoinsBefore`).  This invariant is kept line by line (`Scanner.joinsBefore_before`), and says which
lines are passed over as joined and that none is joined twice (`scanLines_joins`).

Which lines are joined into a value can be read off the lines themselves, since a line goes on
exactly when the text of the value on it does (`Continuation.goesOn_valueText`).
-/

namespace TclAtlas

/-! ## The text of a value -/

/-- **The text of a value** on its own line: what follows the name in `set name value`. -/
def valueText? (line : Text) : Option Text :=
  match splitWords line with
  | first :: name :: value :: _ =>
    if first.text = ScanState.setWord ∧ Text.isSymbolName name.text then
      some (Text.dropBytes value.start line)
    else none
  | _ => none

/-- The text of a value stands at the end of its line, behind a name. -/
theorem exists_of_valueText? {line first : Text} (h : valueText? line = some first) :
    ∃ before name gap, line = before ++ (name ++ gap) ++ first ∧
      Text.isSymbolName name = true ∧ IsGap gap := by
  rw [valueText?] at h
  split at h
  · next set name value more hwords =>
    have hspaced := splitWords_spaced line
    rw [hwords] at hspaced
    obtain ⟨gap, after, hline, -, hset, -, -, gap₁, after₁, rfl, -, hname, -, -, gap₂, after₂, rfl,
      hgap, hvalue, -⟩ := hspaced
    obtain ⟨⟨-, hsymbol⟩, hfirst⟩ := Option.ite_none_right_eq_some.mp h
    have hparts : line = gap ++ (set.text ++ gap₁) ++ (name.text ++ gap₂) ++
        (value.text ++ after₂) := by
      simp [hline]
    have hbefore : value.start =
        Text.byteLength (gap ++ (set.text ++ gap₁) ++ (name.text ++ gap₂)) := by
      simp only [hvalue, hname, hset, Text.byteLength_append]
      omega
    have hdrop : Text.dropBytes value.start line = value.text ++ after₂ := by
      rw [hbefore, hparts, Text.dropBytes_byteLength_append]
    obtain rfl := Option.some.inj (hdrop ▸ hfirst)
    exact ⟨_, name.text, gap₂, hparts, hsymbol, hgap⟩
  · exact absurd h (by simp)

namespace Continuation

/-- **A value goes on** when its line does. -/
theorem goesOn_valueText {line first : Text} (h : valueText? line = some first) :
    goesOn (Text.trimEnd first) = goesOn (Text.trimEnd line) := by
  obtain ⟨before, name, gap, rfl, hname, hgap⟩ := exists_of_valueText? h
  obtain ⟨s, c, rfl, hc⟩ := Text.exists_of_isSymbolName hname
  have hblank : Text.trimEnd gap = [] :=
    Text.trimEnd_eq_nil_iff.mpr fun d hd => Text.isBlank_of_whitespace (hgap d hd)
  have hc' : c ≠ '\\' := by
    rintro rfl
    exact absurd hc (by decide)
  have hlast : (before ++ (s ++ [c] ++ gap)).getLast? ≠ some '\\' := by
    rcases gap.eq_nil_or_concat with rfl | ⟨gap, d, rfl⟩
    · simpa using hc'
    · have hd : d ≠ '\\' := by
        rintro rfl
        exact absurd (hgap '\\' (by simp)) (by decide)
      simpa [List.getLast?_cons] using hd
  rw [Text.trimEnd_append (before ++ (s ++ [c] ++ gap))]
  split
  · next hnil =>
    -- the line ends with the name
    rw [hnil, ← List.append_assoc, Text.trimEnd_append, hblank, if_pos rfl, ← List.append_assoc,
      Text.trimEnd_concat, Text.isBlank_of_isSymbolChar hc]
    exact (goesOn_of_getLast? (by simpa using hc')).symm
  · rw [goesOn_append hlast]

/-- The lines joined into a value are those after lines that go on, the first being its own. -/
theorem goesOver_valueText {line first : Text} (h : valueText? line = some first) :
    ∀ below : List Text, goesOver (first :: below) = goesOver (line :: below)
  | [] => rfl
  | _ :: _ => by rw [goesOver, goesOver, goesOn_valueText h]

end Continuation

open Continuation

/-! ## What a line binds -/

/-- **A line binds**: the binding is on it, and its value is made of the text of the value and the
lines it goes on over. -/
def LineAt.Binds (l : LineAt) (b : Binding) : Prop :=
  b.location.line = l.number ∧ ∃ first, valueText? l.text = some first ∧
    b.value = glue (first :: l.below.take (goesOver (l.text :: l.below)))

namespace ScanState

variable (s : ScanState) (l : LineAt)

/-- A command that neither binds nor joins, or one that binds and joins. -/
def BindsAtMost (found : ScanState × List Finding) : Prop :=
  (found.2.filterMap Finding.binding? = [] ∧ found.1.joinedUntil = s.joinedUntil) ∨
    ∃ b, l.Binds b ∧ found.2.filterMap Finding.binding? = [b] ∧
      found.1.joinedUntil = max s.joinedUntil (l.number + 1 + goesOver (l.text :: l.below))

theorem bindsAtMost_of_none {s : ScanState} {l : LineAt} {found : ScanState × List Finding}
    (hnone : ∀ f ∈ found.2, f.binding? = none) (hjoined : found.1.joinedUntil = s.joinedUntil) :
    s.BindsAtMost l found :=
  Or.inl ⟨List.filterMap_eq_nil_iff.mpr hnone, hjoined⟩

theorem bindsAtMost_nil : s.BindsAtMost l (s, []) := Or.inl ⟨rfl, rfl⟩

theorem bindsAtMost_matchSet {first : Word} {others : List Word}
    (hwords : splitWords l.text = first :: others) (hset : first.text = setWord) :
    s.BindsAtMost l (s.matchSet l (first :: others)) := by
  rcases others with _ | ⟨name, _ | ⟨value, more⟩⟩
  · exact s.bindsAtMost_nil l
  · exact s.bindsAtMost_nil l
  rw [matchSet]
  split
  · next hname =>
    have hvalue : valueText? l.text = some (Text.dropBytes value.start l.text) := by
      simp [valueText?, hwords, hset, hname]
    have hcount := goesOver_valueText hvalue l.below
    have hjoin := trim_join (Text.dropBytes value.start l.text) l.below
    rw [hcount] at hjoin
    refine Or.inr ⟨⟨name.text, Text.trim (join (Text.dropBytes value.start l.text) l.below).1,
      l.location name.start⟩, ⟨rfl, _, hvalue, hjoin⟩, ?_, ?_⟩
    · rw [List.filterMap_append, filterMap_literalFindings fun _ _ _ _ => rfl]
      rfl
    · rw [← hcount, ← join_snd]
  · exact s.bindsAtMost_nil l

theorem bindsAtMost_matchBlock (words : List Word) : s.BindsAtMost l (s.matchBlock words) := by
  refine bindsAtMost_of_none (fun f hf => ?_) ?_
  · obtain ⟨ns, rfl⟩ := exists_of_mem_matchBlock hf
    rfl
  · rw [matchBlock.eq_def]
    split
    · simp only
      split <;> rfl
    · rfl

/-- **The words of a line** bind nothing and join no line, or they bind one variable and join the
lines that its value goes on over. -/
theorem bindsAtMost_matchLine : s.BindsAtMost l (s.matchLine l) := by
  refine matchLine_rec (s.bindsAtMost_nil l) ?header
    (fun first others hwords hset => s.bindsAtMost_matchSet l hwords hset)
    (s.bindsAtMost_matchBlock l _) ?imports ?keys
  case header =>
    refine bindsAtMost_of_none (fun f hf => ?_) rfl
    obtain ⟨d, rfl⟩ := exists_of_mem_definitionFindings hf
    rfl
  case imports =>
    refine bindsAtMost_of_none (fun f hf => ?_) rfl
    obtain ⟨i, rfl⟩ := exists_of_mem_importFindings hf
    rfl
  case keys =>
    refine bindsAtMost_of_none (fun f hf => ?_) rfl
    obtain ⟨n, keys, location, rfl⟩ := exists_of_mem_dictSetFindings hf
    rfl

/-- **A line that binds** is not joined itself, and ends the lines joined so far. -/
theorem step_binds :
    ((s.step l).2.filterMap Finding.binding? = [] ∧
      (s.step l).1.joinedUntil = s.joinedUntil) ∨
    ∃ b, l.Binds b ∧ s.joinedUntil ≤ l.number ∧
      (s.step l).2.filterMap Finding.binding? = [b] ∧
      (s.step l).1.joinedUntil = l.number + 1 + goesOver (l.text :: l.below) := by
  rw [step_fst, step_snd, closeScopes, joinedUntil_foldl_count]
  by_cases hskips : s.skips l = true
  · rw [if_pos hskips, if_pos hskips]
    exact Or.inl ⟨rfl, rfl⟩
  · have hle : s.joinedUntil ≤ l.number := by
      simp only [skips, Bool.or_eq_true, decide_eq_true_eq, not_or, Nat.not_lt] at hskips
      exact hskips.2
    rw [if_neg hskips, if_neg hskips]
    refine (s.bindsAtMost_matchLine l).imp_right ?_
    rintro ⟨b, hb, hfound, hjoined⟩
    exact ⟨b, hb, hle, hfound, by rw [hjoined]; omega⟩

end ScanState

/-! ## The lines joined in a file -/

/-- The number of the first line after those joined into a value on the line of a number. -/
def joinedEnd (lines : List Text) (number : Nat) : Nat :=
  number + 1 + goesOver (lines.drop number)

/-- **The lines joined** into a value on the line of a number: those right after it, as many as it
goes on over. -/
def joinedLines (lines : List Text) (number : Nat) : List Nat :=
  List.range' (number + 1) (goesOver (lines.drop number))

theorem mem_joinedLines_iff {lines : List Text} {number i : Nat} :
    i ∈ joinedLines lines number ↔ number < i ∧ i < joinedEnd lines number :=
  List.mem_range'_1

/-- **A line is joined** exactly when there is one and the line before it goes on, which is joined
too or the one of the value. -/
theorem succ_mem_joinedLines_iff {lines : List Text} {number i : Nat} :
    i + 1 ∈ joinedLines lines number ↔
      i + 1 < lines.length ∧ (i = number ∨ i ∈ joinedLines lines number) ∧
        ∃ line, lines[i]? = some line ∧ goesOn (Text.trimEnd line) = true := by
  rw [mem_joinedLines_iff, mem_joinedLines_iff, joinedEnd]
  by_cases hi : number ≤ i
  · obtain ⟨k, rfl⟩ := Nat.exists_eq_add_of_le hi
    have hiff := lt_goesOver_iff (lines.drop number) k
    rw [List.length_drop, List.getElem?_drop] at hiff
    constructor
    · intro h
      obtain ⟨hle, hlength, hgoes⟩ := hiff.mp (by omega)
      exact ⟨by omega, by omega, hgoes⟩
    · rintro ⟨hlength, hjoined, hgoes⟩
      have hlt := hiff.mpr ⟨by omega, by omega, hgoes⟩
      omega
  · omega

theorem lt_length_of_mem_joinedLines {lines : List Text} {number i : Nat}
    (h : i ∈ joinedLines lines number) : i < lines.length := by
  obtain ⟨i, rfl⟩ := Nat.exists_eq_succ_of_ne_zero (Nat.ne_zero_of_lt (mem_joinedLines_iff.mp h).1)
  exact (succ_mem_joinedLines_iff.mp h).1

/-- The texts of lines in a row. -/
theorem filterMap_range' (lines : List Text) : ∀ n number : Nat,
    (List.range' number n).filterMap (lines[·]?) = (lines.drop number).take n
  | 0, _ => by simp
  | n + 1, number => by
    rw [List.range'_succ, List.filterMap_cons, filterMap_range' lines n]
    rcases h : lines.drop number with _ | ⟨line, below⟩
    · have hnone : lines[number]? = none := by rw [← List.head?_drop, h, List.head?_nil]
      have hbelow : lines.drop (number + 1) = [] := by rw [← List.tail_drop, h, List.tail_nil]
      simp [hnone, hbelow]
    · have hsome : lines[number]? = some line := by rw [← List.head?_drop, h, List.head?_cons]
      have hbelow : lines.drop (number + 1) = below := by
        rw [← List.tail_drop, h, List.tail_cons]
      simp [hsome, hbelow]

/-- **How a binding of a file is made**: its value is put together from the text of the value on its
line and the lines joined, and these are as many as the value takes in. -/
def Binding.JoinedIn (lines : List Text) (b : Binding) : Prop :=
  let joined := joinedLines lines b.location.line
  ∃ line first, lines[b.location.line]? = some line ∧ valueText? line = some first ∧
    (join first (lines.drop (b.location.line + 1))).2 = joined.length ∧
    b.value = glue (first :: joined.filterMap (lines[·]?))

theorem Binding.joinedIn_of_binds {file : FileId} {lines : List Text} {number : Nat} {b : Binding}
    (h : number < lines.length)
    (hb : LineAt.Binds ⟨file, number, lines[number], lines.drop (number + 1)⟩ b) :
    b.JoinedIn lines := by
  obtain ⟨rfl, first, hfirst, hvalue⟩ := hb
  rw [← List.drop_eq_getElem_cons h] at hvalue
  refine ⟨lines[b.location.line], first, List.getElem?_eq_getElem h, hfirst, ?_, ?_⟩
  · rw [join_snd, goesOver_valueText hfirst, ← List.drop_eq_getElem_cons h]
    simp [joinedLines]
  · rw [hvalue, joinedLines, filterMap_range']

/-- **Where a scan stands** before the line of a number: its bindings are on lines read, the lines
joined into each end before the next one, and the lines joined so far end with those of one of
them. -/
structure JoinsBefore (lines : List Text) (number : Nat) (bindings : List Binding)
    (joinedUntil : Nat) : Prop where
  joinedIn : ∀ b ∈ bindings, b.JoinedIn lines
  line_lt : ∀ b ∈ bindings, b.location.line < number
  apart : bindings.Pairwise fun b c => joinedEnd lines b.location.line ≤ c.location.line
  end_le : ∀ b ∈ bindings, joinedEnd lines b.location.line ≤ joinedUntil
  eq_end : joinedUntil = 0 ∨ ∃ b ∈ bindings, joinedEnd lines b.location.line = joinedUntil

namespace JoinsBefore

variable {lines : List Text} {number joinedUntil : Nat} {bindings : List Binding}

theorem start (lines : List Text) : JoinsBefore lines 0 [] 0 :=
  ⟨by simp, by simp, List.Pairwise.nil, by simp, Or.inl rfl⟩

/-- A line that binds nothing. -/
theorem pass (h : JoinsBefore lines number bindings joinedUntil) :
    JoinsBefore lines (number + 1) bindings joinedUntil :=
  { h with line_lt := fun b hb => Nat.lt_succ_of_lt (h.line_lt b hb) }

/-- **A line that binds** is past the lines joined so far. -/
theorem bind (h : JoinsBefore lines number bindings joinedUntil) {b : Binding}
    (hb : b.JoinedIn lines) (hline : b.location.line = number) (hle : joinedUntil ≤ number) :
    JoinsBefore lines (number + 1) (bindings ++ [b]) (joinedEnd lines number) := by
  have hpast : ∀ c ∈ bindings, joinedEnd lines c.location.line ≤ number := fun c hc =>
    (h.end_le c hc).trans hle
  have hend : number ≤ joinedEnd lines number := by
    rw [joinedEnd]
    omega
  refine ⟨?_, ?_, ?_, ?_, Or.inr ⟨b, by simp, by rw [hline]⟩⟩
  · exact List.forall_mem_append.mpr ⟨h.joinedIn, List.forall_mem_singleton.mpr hb⟩
  · exact List.forall_mem_append.mpr ⟨h.pass.line_lt, List.forall_mem_singleton.mpr (by omega)⟩
  · refine List.pairwise_append.mpr ⟨h.apart, List.pairwise_singleton .., fun c hc d hd => ?_⟩
    rw [List.mem_singleton.mp hd, hline]
    exact hpast c hc
  · exact List.forall_mem_append.mpr ⟨fun c hc => (hpast c hc).trans hend,
      List.forall_mem_singleton.mpr (by rw [hline])⟩

end JoinsBefore

namespace Scanner

/-- **The scan of the lines before the one of a number.** -/
def before (file : FileId) (lines : List Text) (number : Nat) : Scanner :=
  (List.range number).foldl (scanLine file lines) start

variable {file : FileId} {lines : List Text} {number : Nat}

theorem before_succ (h : number < lines.length) : before file lines (number + 1) =
    (before file lines number).step ⟨file, number, lines[number], lines.drop (number + 1)⟩ := by
  rw [before, List.range_succ, List.foldl_append, ← before, List.foldl_cons, List.foldl_nil,
    scanLine, List.drop_eq_getElem_cons h]

theorem state_step (s : Scanner) (l : LineAt) : (s.step l).state = (s.state.step l).1 := rfl

theorem outline_step (s : Scanner) (l : LineAt) :
    (s.step l).outline = s.outline.addAll (s.state.step l).2 := rfl

theorem outline_before_length (file : FileId) (lines : List Text) :
    (before file lines lines.length).outline = scanLines file lines := foldl_scanLine file lines

/-- **A line of a file** binds nothing and joins no line, or it binds one variable on it, and then
it is not joined itself. -/
theorem before_succ_cases (file : FileId) (h : number < lines.length) :
    ((before file lines (number + 1)).outline.bindings =
        (before file lines number).outline.bindings ∧
      (before file lines (number + 1)).state.joinedUntil =
        (before file lines number).state.joinedUntil) ∨
    ∃ b : Binding, b.JoinedIn lines ∧ b.location.line = number ∧
      (before file lines number).state.joinedUntil ≤ number ∧
      (before file lines (number + 1)).outline.bindings =
        (before file lines number).outline.bindings ++ [b] ∧
      (before file lines (number + 1)).state.joinedUntil = joinedEnd lines number := by
  rw [before_succ h, state_step, outline_step, Outline.bindings_addAll]
  rcases (before file lines number).state.step_binds
    ⟨file, number, lines[number], lines.drop (number + 1)⟩ with
    ⟨hnone, hsame⟩ | ⟨b, hb, hle, hfound, hend⟩
  · exact Or.inl ⟨by rw [hnone, List.append_nil], hsame⟩
  · refine Or.inr ⟨b, b.joinedIn_of_binds h hb, hb.1, hle, by rw [hfound], ?_⟩
    rw [hend, ← List.drop_eq_getElem_cons h, joinedEnd]

/-- **Where a scan stands**, line by line. -/
theorem joinsBefore_before (file : FileId) (lines : List Text) : ∀ {number : Nat},
    number ≤ lines.length → JoinsBefore lines number (before file lines number).outline.bindings
      (before file lines number).state.joinedUntil
  | 0, _ => JoinsBefore.start lines
  | number + 1, h => by
    have ih := joinsBefore_before file lines (Nat.le_of_succ_le h)
    rcases before_succ_cases file h with ⟨hbindings, hjoined⟩ |
      ⟨b, hb, hline, hle, hbindings, hjoined⟩ <;> rw [hbindings, hjoined]
    · exact ih.pass
    · exact ih.bind hb hline hle

/-- **The bindings before a line** are those of the file that are on lines before it. -/
theorem mem_bindings_before_iff {m : Nat} (hm : m ≤ lines.length) {b : Binding} :
    b ∈ (before file lines m).outline.bindings ↔
      b ∈ (scanLines file lines).bindings ∧ b.location.line < m := by
  have hlater : ∀ n, m ≤ n → n ≤ lines.length → ∃ later,
      (before file lines n).outline.bindings = (before file lines m).outline.bindings ++ later ∧
        ∀ c ∈ later, m ≤ c.location.line := by
    intro n hn
    induction n, hn using Nat.le_induction with
    | base => exact fun _ => ⟨[], by simp, by simp⟩
    | succ n hmn ih =>
      intro hlength
      obtain ⟨later, heq, hle⟩ := ih (Nat.le_of_succ_le hlength)
      rcases before_succ_cases file hlength with ⟨hbindings, -⟩ | ⟨c, -, hline, -, hbindings, -⟩
      · exact ⟨later, by rw [hbindings, heq], hle⟩
      · refine ⟨later ++ [c], by rw [hbindings, heq, List.append_assoc], ?_⟩
        exact List.forall_mem_append.mpr ⟨hle, List.forall_mem_singleton.mpr (hline ▸ hmn)⟩
  obtain ⟨later, heq, hle⟩ := hlater lines.length hm (Nat.le_refl _)
  rw [outline_before_length] at heq
  rw [heq, List.mem_append]
  constructor
  · exact fun hb => ⟨Or.inl hb, (joinsBefore_before file lines hm).line_lt b hb⟩
  · rintro ⟨hb | hb, hline⟩
    · exact hb
    · exact absurd (hle b hb) (by omega)

/-- **A line is passed over as joined** exactly when it is joined into a value of the file. -/
theorem lt_joinedUntil_iff (h : number ≤ lines.length) :
    number < (before file lines number).state.joinedUntil ↔
      ∃ b ∈ (scanLines file lines).bindings, number ∈ joinedLines lines b.location.line := by
  have hstands := joinsBefore_before file lines h
  constructor
  · intro hlt
    obtain ⟨b, hb, hend⟩ := hstands.eq_end.resolve_left (by omega)
    obtain ⟨hmem, hline⟩ := (mem_bindings_before_iff h).mp hb
    exact ⟨b, hmem, mem_joinedLines_iff.mpr ⟨hline, hend ▸ hlt⟩⟩
  · rintro ⟨b, hb, hjoined⟩
    obtain ⟨hline, hend⟩ := mem_joinedLines_iff.mp hjoined
    exact hend.trans_le (hstands.end_le b ((mem_bindings_before_iff h).mpr ⟨hb, hline⟩))

/-- **A line that is passed over** makes no findings. -/
theorem outline_before_succ_of_lt (h : number < lines.length)
    (hjoined : number < (before file lines number).state.joinedUntil) :
    (before file lines number).state.skips
        ⟨file, number, lines[number], lines.drop (number + 1)⟩ = true ∧
      (before file lines (number + 1)).outline = (before file lines number).outline := by
  have hskips : (before file lines number).state.skips
      ⟨file, number, lines[number], lines.drop (number + 1)⟩ = true := by
    simp [ScanState.skips, hjoined]
  refine ⟨hskips, ?_⟩
  rw [before_succ h, outline_step, ScanState.step_snd, if_pos hskips, Outline.addAll_nil]

end Scanner

/-- **Every line is joined at most once.**  The value of a binding is put together from its line and
the lines joined, right after it; no line is joined into two values; a line is joined exactly when
there is one and the line before it, trimmed at its end, ends in an odd number of backslashes and is
joined too or that of the binding.  The lines joined into values are those that a scan passes over
as such, and they make no findings of their own. -/
theorem scanLines_joins (file : FileId) (lines : List Text) :
    let o := scanLines file lines
    (∀ b ∈ o.bindings, b.JoinedIn lines) ∧
    (o.bindings.Pairwise fun b c => List.Disjoint (joinedLines lines b.location.line)
      (joinedLines lines c.location.line)) ∧
    (∀ b ∈ o.bindings, ∀ i, i + 1 ∈ joinedLines lines b.location.line ↔
      i + 1 < lines.length ∧
        (i = b.location.line ∨ i ∈ joinedLines lines b.location.line) ∧
        ∃ line, lines[i]? = some line ∧ goesOn (Text.trimEnd line) = true) ∧
    (∀ i < lines.length, i < (Scanner.before file lines i).state.joinedUntil ↔
      ∃ b ∈ o.bindings, i ∈ joinedLines lines b.location.line) ∧
    ∀ b ∈ o.bindings, ∀ i ∈ joinedLines lines b.location.line, ∃ line, lines[i]? = some line ∧
      (Scanner.before file lines i).state.skips ⟨file, i, line, lines.drop (i + 1)⟩ = true ∧
      (Scanner.before file lines (i + 1)).outline = (Scanner.before file lines i).outline := by
  intro o
  have hstands := Scanner.joinsBefore_before file lines (Nat.le_refl lines.length)
  rw [Scanner.outline_before_length] at hstands
  refine ⟨hstands.joinedIn, hstands.apart.imp fun hle i hb hc => ?_,
    fun b _ i => succ_mem_joinedLines_iff, fun i hi => Scanner.lt_joinedUntil_iff hi.le,
    fun b hb i hi => ?_⟩
  · have hend := (mem_joinedLines_iff.mp hb).2
    have hline := (mem_joinedLines_iff.mp hc).1
    omega
  · have hlength := lt_length_of_mem_joinedLines hi
    have hjoined := (Scanner.lt_joinedUntil_iff hlength.le).mpr ⟨b, hb, hi⟩
    exact ⟨lines[i], List.getElem?_eq_getElem hlength,
      Scanner.outline_before_succ_of_lt hlength hjoined⟩

/-- A value that is joined from two lines and a dictionary from three: the lines between make no
findings, not even one that looks like a definition. -/
example :
    let lines := ["proc p \x7b\x7d \x7b\x7d".toList, "set v one\\".toList,
      "proc q \x7b\x7d \x7b\x7d".toList, "set d [dict create k \\".toList, "1 \\".toList,
      "l 2]".toList]
    let o := scanLines ⟨0⟩ lines
    o.definitions.map Definition.name = [['p']] ∧
      o.bindings.map (fun b => joinedLines lines b.location.line) = [[2], [4, 5]] ∧
      o.bindings.map Binding.value = ["one proc q \x7b\x7d \x7b\x7d".toList,
        "[dict create k 1 l 2]".toList] ∧
      (o.dicts.get? ['d']).map DictShape.keys = some [['k'], ['l']] := by
  decide +kernel

end TclAtlas
