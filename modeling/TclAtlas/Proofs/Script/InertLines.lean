import TclAtlas.Proofs.Scan.Appending
import TclAtlas.Proofs.Scan.Positions
import TclAtlas.Proofs.Script.Attribution

/-!
# Proofs/Script/InertLines — blank lines and comments do nothing

A blank line has no command and nothing that counts.  A comment is passed over and its quotes do not
count, so that it does nothing either when no brace in it counts, and none does that is escaped
(`exists_of_mem_lexemes`).  Either line makes no findings and leaves the state of a scan as it is
(`ScanState.step_of_inert`).

The lines below it are then scanned from the same state, one line further down.  Which lines that
state has joined is told by their numbers, but none of the lines below is joined yet where the line
before does not go on.  So the outline is the same but for the places below the line, and the scan
ends in the same state (`scanLines_insert`).
-/

namespace TclAtlas

/-! ## Escaped braces -/

/-- **A line whose braces are all escaped**: before each stands an odd number of backslashes. -/
def Text.BracesEscaped (t : Text) : Prop :=
  ∀ i (h : i < t.length), t[i] = '{' ∨ t[i] = '}' → Continuation.goesOn (t.take i) = true

instance (t : Text) : Decidable (Text.BracesEscaped t) :=
  inferInstanceAs (Decidable (∀ i (h : i < t.length), t[i] = '{' ∨ t[i] = '}' →
    Continuation.goesOn (t.take i) = true))

open Continuation in
/-- **A lexeme that is no escape and no white space** begins with a character that is not
escaped. -/
theorem exists_of_mem_lexemes : ∀ {t : Text} {l : Lexeme}, l ∈ lexemes t → l.kind ≠ .escape →
    l.kind ≠ .whitespace → ∃ before c after, t = before ++ c :: after ∧
      LexemeKind.ofChar c = l.kind ∧ goesOn before = false
  | [], _, h, _, _ => absurd h (by simp [lexemes])
  | [c], l, h, _, _ => by
    obtain rfl : l = ⟨.ofChar c, [c]⟩ := by simpa [lexemes] using h
    exact ⟨[], c, [], rfl, rfl, rfl⟩
  | c :: d :: t, l, h, hescape, hgap => by
    rw [lexemes] at h
    split at h
    · next hc =>
      rcases List.mem_cons.mp h with rfl | h
      · exact absurd rfl hescape
      · obtain ⟨before, e, after, rfl, hkind, hgoes⟩ := exists_of_mem_lexemes h hescape hgap
        exact ⟨c :: d :: before, e, after, rfl, hkind, by rw [hc.1, goesOn_escape, hgoes]⟩
    · next hc =>
      rcases Lexeme.mem_attach h with h | rfl | ⟨m, -, -, rfl⟩
      · obtain ⟨before, e, after, ht, hkind, hgoes⟩ := exists_of_mem_lexemes h hescape hgap
        refine ⟨c :: before, e, after, by rw [ht, List.cons_append], hkind, ?_⟩
        by_cases hslash : c = '\\'
        · -- a backslash escapes nothing before a line feed, which is white space
          obtain rfl : d = '\n' := by simpa [hslash] using hc
          rcases before with _ | ⟨b, before⟩
          · obtain ⟨rfl, -⟩ := List.cons.inj ht
            exact absurd hkind.symm hgap
          · obtain ⟨rfl, -⟩ := List.cons.inj ht
            rw [hslash, goesOn_escape]
            rwa [← List.singleton_append, goesOn_append (by simp)] at hgoes
        · rwa [← List.singleton_append, goesOn_append (by simpa using hslash)]
      · exact ⟨[], c, d :: t, rfl, rfl, rfl⟩
      · exact ⟨[], c, d :: t, rfl, rfl, rfl⟩

/-- **Where all braces are escaped no lexeme is a brace.** -/
theorem Text.BracesEscaped.kind_ne {line : Text} (h : BracesEscaped line) {l : Lexeme}
    (hl : l ∈ lexemes line) : l.kind ≠ .openBrace ∧ l.kind ≠ .closeBrace := by
  have hbrace : ∀ c, LexemeKind.ofChar c = .openBrace ∨ LexemeKind.ofChar c = .closeBrace →
      c = '{' ∨ c = '}' := by
    intro c hc
    unfold LexemeKind.ofChar at hc
    grind
  refine not_or.mp fun hkind => ?_
  have hother : l.kind ≠ .escape ∧ l.kind ≠ .whitespace := by
    rcases hkind with hkind | hkind <;> simp [hkind]
  obtain ⟨before, c, after, rfl, hc, hgoes⟩ := exists_of_mem_lexemes hl hother.1 hother.2
  have hodd := h before.length (by simp) (by simpa using hbrace c (hc ▸ hkind))
  rw [List.take_left] at hodd
  exact absurd (hodd.symm.trans hgoes) (by decide)

/-! ## Lines that do nothing -/

/-- **A line that is inert** after a scan of the lines above: it is blank, or a comment whose braces
are all escaped. -/
inductive ScanState.Inert (s : ScanState) (line : Text) : Prop
  | blank (h : ∀ c ∈ line, Text.isBlank c = true)
  | comment (h : s.isComment line = true) (hbraces : Text.BracesEscaped line)

namespace ScanState

variable {s : ScanState}

/-- **Nothing in a blank line counts.** -/
theorem isPlain_of_blank {line : Text} (h : ∀ c ∈ line, Text.isBlank c = true) :
    Script.IsPlain line := by
  intro c hc
  have hblank := h c hc
  refine ⟨?_, ?_, ?_, ?_⟩ <;> rintro rfl <;> exact absurd hblank (by decide)

/-- **No word of a blank line is a command.** -/
theorem not_mem_commandWords_of_blank {line : Text} (h : ∀ c ∈ line, Text.isBlank c = true)
    {w : Word} (hw : w ∈ splitWords line) : w.text ∉ Script.commandWords := by
  intro hmem
  have hletters : ∀ word ∈ Script.commandWords, word.all Text.isNameChar = true := by decide
  obtain ⟨⟨c, cs, hc, -⟩, before, after, hline, -⟩ := (splitWords_spaced line).exists_around hw
  have hletter : Text.isNameChar c = true :=
    List.all_eq_true.mp (hletters w.text hmem) c (hc ▸ List.mem_cons_self)
  have hblank : Text.isBlank c = true := h c (by simp [hline, hc])
  exact absurd (hblank.symm.trans (Text.isBlank_of_isNameChar hletter)) (by decide)

/-- **An inert line does nothing.** -/
theorem step_of_inert (hnested : s.Nested) {l : LineAt} (h : s.Inert l.text) :
    s.step l = (s, []) := by
  have hclose : s.closeScopes = s :=
    closeScopes_eq_self fun scope hscope => hnested.le_depth scope (List.mem_of_head? hscope)
  rcases h with hblank | ⟨hcomment, hbraces⟩
  · have hno : ∀ w ∈ (splitWords l.text).head?, w.text ∉ Script.commandWords := fun w hw =>
      not_mem_commandWords_of_blank hblank (List.mem_of_head? hw)
    rw [step_of_no_command hno, foldl_count_of_plain _ s (isPlain_of_blank hblank), hclose]
  · have hcount : (lexemes l.text).foldl (count true) s = s := by
      refine foldl_count_eq_self fun m hm => ?_
      obtain ⟨hopen, hshut⟩ := hbraces.kind_ne hm
      rw [count.eq_def]
      split <;> first | rfl | contradiction
    have hskips : s.skips l = true := by simp [skips, hcomment]
    rw [step, hskips, hcomment]
    simp only [if_true, hcount, hclose]

end ScanState

/-! ## Places below a line -/

/-- The place one line further down, if it is on the line of the given number or below. -/
def Location.downFrom (number : Nat) (p : Location) : Location :=
  if number ≤ p.line then p.down 1 else p

namespace Finding

theorem relocate_relocate (g h : Location → Location) (f : Finding) :
    (f.relocate h).relocate g = f.relocate (g ∘ h) := by
  cases f <;> rfl

theorem relocate_eq_self {g : Location → Location} {f : Finding}
    (h : ∀ p ∈ f.location?, g p = p) : f.relocate g = f := by
  cases f with
  | definition d => exact congrArg (fun p => definition { d with location := p }) (h _ rfl)
  | binding b => exact congrArg (fun p => binding { b with location := p }) (h _ rfl)
  | dictKeys name keys parent location => exact congrArg (dictKeys name keys parent) (h _ rfl)
  | declared ns => rfl
  | imported i => rfl

/-- Findings further down, but for those above the line of the given number. -/
theorem relocate_downFrom_down (number : Nat) (f : Finding) :
    (f.relocate (Location.down number)).relocate (Location.downFrom number) =
      f.relocate (Location.down (number + 1)) := by
  rw [relocate_relocate]
  refine congrArg (f.relocate ·) (funext fun p => ?_)
  simp [Location.downFrom, Location.down, Nat.add_assoc]

end Finding

namespace ScanState

/-- **Lines below none of which is joined** are scanned one line further down as they are where they
stand. -/
theorem run_down (file : FileId) (lines : List Text) {number : Nat} {s : ScanState}
    (hjoined : s.joinedUntil ≤ number) :
    (∃ n, (run file (number + 1) lines s).1 =
      { (run file number lines s).1 with joinedUntil := n }) ∧
    (run file (number + 1) lines s).2 =
      (run file number lines s).2.map (Finding.relocate (Location.downFrom number)) := by
  have hdown : ∀ k line column, Location.down k ⟨file, line, column⟩ = ⟨file, line + k, column⟩ :=
    fun _ _ _ => rfl
  obtain ⟨f, hf, hs⟩ := exists_shifts_of_le hjoined
  obtain ⟨g, hg, hs'⟩ := exists_shifts_of_le (Nat.le_succ_of_le hjoined)
  have hhere := run_rejoin hf (hdown number) lines 0 { s with joinedUntil := 0 }
  have hbelow := run_rejoin hg (hdown (number + 1)) lines 0 { s with joinedUntil := 0 }
  rw [← hs, Nat.zero_add] at hhere
  rw [← hs', Nat.zero_add] at hbelow
  rw [hhere, hbelow]
  refine ⟨⟨_, rfl⟩, ?_⟩
  rw [List.map_map]
  exact List.map_congr_left fun f _ => (f.relocate_downFrom_down number).symm

end ScanState

/-! ## Lines put in -/

/-- **Blank lines and comments are inert.**  Below lines of which the last does not go on, a line
that is blank, or a comment whose braces are all escaped, changes nothing: the outline is the same
but that all places below are one line further down, and the scan ends at the same depth, as much in
a string, and in the same namespace. -/
theorem scanLines_insert (file : FileId) {as : List Text} {line : Text} (bs : List Text)
    (hclosed : Continuation.Closed as) (hline : (ScanState.start.run file 0 as).1.Inert line) :
    scanLines file (as ++ line :: bs) =
        (scanLines file (as ++ bs)).relocate (Location.downFrom as.length) ∧
      let s := (ScanState.start.run file 0 (as ++ line :: bs)).1
      let s' := (ScanState.start.run file 0 (as ++ bs)).1
      s.depth = s'.depth ∧ s.inString = s'.inString ∧ s.current = s'.current := by
  have hjoined : (ScanState.start.run file 0 as).1.joinedUntil ≤ as.length := by
    simpa using ScanState.joinedUntil_run_le file as 0 (Nat.zero_le (0 + as.length))
  have habove : (ScanState.start.run file 0 as).2.map
      (Finding.relocate (Location.downFrom as.length)) = (ScanState.start.run file 0 as).2 := by
    have hself : ∀ f ∈ (ScanState.start.run file 0 as).2,
        f.relocate (Location.downFrom as.length) = id f := by
      refine fun f hf => Finding.relocate_eq_self fun p hp => if_neg ?_
      have hline := (ScanState.line_of_mem_run hf p hp).2
      omega
    rw [List.map_congr_left hself, List.map_id]
  have hstep := ScanState.step_of_inert (ScanState.nested_start.run file as 0)
    (l := ⟨file, 0 + as.length, line, bs⟩) hline
  obtain ⟨⟨n, hstate⟩, hfound⟩ := ScanState.run_down file bs hjoined
  have hinserted := ScanState.run_append file (line :: bs) hclosed 0 .start
  have hplain := ScanState.run_append file bs hclosed 0 .start
  rw [ScanState.run, hstep] at hinserted
  simp only [Nat.zero_add, List.nil_append] at hinserted hplain
  refine ⟨?_, ?_⟩
  · rw [scanLines, scanLines, ← Outline.ofFindings_relocate, hinserted, hplain, hfound,
      List.map_append, habove]
  · rw [hinserted, hplain, hstate]
    exact ⟨rfl, rfl, rfl⟩

/-- A comment with an open quote and an escaped brace, in a block and below a value over two
lines. -/
theorem scanLines_insert_comment :
    let above : List Text := ["namespace eval shop \x7b".toList, "set total 1 \\".toList,
      "+ 2".toList]
    let line : Text := "  # \\\x7b \"open".toList
    let below : List Text := ["proc pay \x7b\x7d \x7b\x7d".toList]
    scanLines ⟨0⟩ (above ++ line :: below) =
        (scanLines ⟨0⟩ (above ++ below)).relocate (Location.downFrom 3) ∧
      (scanLines ⟨0⟩ (above ++ line :: below)).definitions.map Definition.location =
        [⟨⟨0⟩, 4, 5⟩] ∧
      (ScanState.start.run ⟨0⟩ 0 (above ++ line :: below)).1.current = some "shop".toList := by
  refine ⟨(scanLines_insert ⟨0⟩ _ ?_ ?_).1, ?_, ?_⟩
  · unfold Continuation.Closed
    decide
  · exact .comment (by decide +kernel) (by decide +kernel)
  · decide +kernel
  · decide +kernel

end TclAtlas
