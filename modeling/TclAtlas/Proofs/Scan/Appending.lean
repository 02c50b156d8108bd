import TclAtlas.Proofs.Outline.Merging
import TclAtlas.Proofs.Scan.Locations
import TclAtlas.Proofs.Scan.Scopes
import TclAtlas.Proofs.Text.Backslashes
import TclAtlas.Proofs.Word.Spacing

/-!
# Proofs/Scan/Appending — scanning a file in two parts

A scan looks ahead only to join lines, and it joins no line after one that does not go on.  So a
list of lines whose last line does not go on is scanned as if nothing followed
(`ScanState.run_append`).  What the scan carries over to the lines that follow is its state: open
braces, an open string, open blocks, and up to which line lines are joined — but no line below is
joined yet, so that this makes no difference (`ScanState.exists_shifts`).

Where no brace and no string is open the state carries nothing over at all: the outline of the whole
is the outline of the first part merged with that of the second, at its places further down
(`scanLines_append`).
-/

namespace TclAtlas

namespace Continuation

/-! ## Values that do not go on -/

/-- **A value does not go on** from a word of a line that does not go on. -/
theorem goesOn_value {t : Text} {w : Word} (hw : w ∈ splitWords t)
    (h : goesOn (Text.trimEnd t) = false) :
    goesOn (Text.trimEnd (Text.dropBytes w.start t)) = false := by
  obtain ⟨-, before, after, rfl, hstart, hlast, -⟩ := (splitWords_spaced t).exists_around hw
  rw [hstart, Nat.zero_add, Text.dropBytes_byteLength_append]
  refine goesOn_trimEnd_of_append (fun hc => ?_) h
  exact absurd (hlast '\\' hc) (by decide)

/-! ## Lines after which none is joined -/

/-- **Lines of which the last does not go on.** -/
def Closed (lines : List Text) : Prop := ∀ l ∈ lines.getLast?, goesOn (Text.trimEnd l) = false

theorem Closed.tail {l : Text} {ls : List Text} (h : Closed (l :: ls)) : Closed ls := by
  intro m hm
  refine h m ?_
  rw [List.getLast?_cons, Option.mem_def.mp hm]
  rfl

/-- **A value takes in none of the lines after closed ones.** -/
theorem joinFrom_append (rest : List Text) : ∀ {ls : List Text} {value : Text}, Closed ls →
    (ls = [] → goesOn value = false) → joinFrom value (ls ++ rest) = joinFrom value ls
  | [], value, _, h => by
    have hvalue := h rfl
    rcases rest with _ | ⟨l, ls⟩ <;> simp [joinFrom, hvalue]
  | l :: ls, value, hclosed, _ => by
    have hjoined : ls = [] → goesOn (dropMark value ++ ' ' :: Text.trim l) = false := by
      rintro rfl
      have hspace : dropMark value ++ ' ' :: Text.trim l =
          (dropMark value ++ [' ']) ++ Text.trim l := by simp
      rw [hspace, goesOn_append (by simp), goesOn_trim, hclosed l rfl]
    rw [List.cons_append, joinFrom, joinFrom, joinFrom_append rest hclosed.tail hjoined]

end Continuation

/-- The line with more lines at the end of those below it. -/
def LineAt.followedBy (rest : List Text) (l : LineAt) : LineAt :=
  { l with below := l.below ++ rest }

namespace ScanState

section

variable {l : LineAt} (h : Continuation.Closed (l.text :: l.below)) (rest : List Text)

include h

theorem matchSet_followedBy (s : ScanState) :
    s.matchSet (l.followedBy rest) (splitWords l.text) = s.matchSet l (splitWords l.text) := by
  rcases hwords : splitWords l.text with _ | ⟨first, _ | ⟨name, _ | ⟨value, more⟩⟩⟩
  · rfl
  · rfl
  · rfl
  · have hvalue : value ∈ splitWords l.text := by simp [hwords]
    have hjoin : Continuation.join (Text.dropBytes value.start l.text) (l.below ++ rest) =
        Continuation.join (Text.dropBytes value.start l.text) l.below := by
      refine Continuation.joinFrom_append rest h.tail fun hbelow => ?_
      exact Continuation.goesOn_value hvalue (h l.text (by simp [hbelow]))
    simp only [matchSet, LineAt.followedBy, LineAt.location, hjoin]

theorem matchLine_followedBy (s : ScanState) :
    s.matchLine (l.followedBy rest) = s.matchLine l := by
  have hset := matchSet_followedBy h rest s
  have htext : (l.followedBy rest).text = l.text := rfl
  rw [matchLine, matchLine, htext]
  generalize splitWords l.text = words at hset ⊢
  rcases words with _ | ⟨first, others⟩
  · rfl
  · simp only [hset]
    rfl

/-- **What follows closed lines** means nothing to the first of them. -/
theorem step_followedBy (s : ScanState) : s.step (l.followedBy rest) = s.step l := by
  rw [step, step, matchLine_followedBy h rest s]
  rfl

end

/-- **Closed lines are scanned as if nothing followed**, and then what follows. -/
theorem run_append (file : FileId) (bs : List Text) : ∀ {as : List Text},
    Continuation.Closed as → ∀ (number : Nat) (s : ScanState),
      run file number (as ++ bs) s =
        ((run file (number + as.length) bs (run file number as s).1).1,
          (run file number as s).2 ++
            (run file (number + as.length) bs (run file number as s).1).2)
  | [], _, _, _ => rfl
  | a :: as, h, number, s => by
    have hstep : s.step ⟨file, number, a, as ++ bs⟩ = s.step ⟨file, number, a, as⟩ :=
      step_followedBy (l := ⟨file, number, a, as⟩) h bs s
    have hlength : number + (a :: as).length = number + 1 + as.length := by
      rw [List.length_cons]
      omega
    rw [List.cons_append, run, hstep, hlength]
    simp only [run_append file bs h.tail (number + 1), run, List.append_assoc]

/-! ## The state after the first lines -/

/-- **If none of the lines below is joined**, it makes no difference to them which ones were. -/
theorem exists_shifts_of_le {s : ScanState} {k : Nat} (hjoined : s.joinedUntil ≤ k) :
    ∃ f, Shifts f k ∧ s = ({ s with joinedUntil := 0 } : ScanState).rejoin f := by
  let f n := if n = 0 then s.joinedUntil else n + k
  refine ⟨f, ⟨fun line n => ?_, fun line n => ?_⟩, rfl⟩ <;> simp only [f]
  · split <;> omega
  · have hne : max n (line + 1) ≠ 0 := by omega
    simp only [hne, if_false]
    split <;> omega

/-- **A state in which nothing is open** is the one before the first line, but for the lines that
are joined. -/
theorem exists_shifts {s : ScanState} {k : Nat} (hdepth : s.depth = 0)
    (hstring : s.inString = false) (hscopes : s.scopes = []) (hjoined : s.joinedUntil ≤ k) :
    ∃ f, Shifts f k ∧ s = start.rejoin f := by
  obtain ⟨f, hf, hs⟩ := exists_shifts_of_le hjoined
  have hstart : ({ s with joinedUntil := 0 } : ScanState) = start := by
    rw [hdepth, hstring, hscopes]
    rfl
  exact ⟨f, hf, by rw [← hstart, ← hs]⟩

end ScanState

/-! ## Two parts of a file -/

/-- A place the given number of lines further down. -/
def Location.down (k : Nat) (l : Location) : Location := { l with line := l.line + k }

/-- **Scanning is compositional.**  Where the first lines leave no brace and no string open and the
last of them does not go on, the outline of all lines is that of the first ones merged with that of
the others, at its places further down. -/
theorem scanLines_append (file : FileId) {as : List Text} (bs : List Text)
    (hclosed : Continuation.Closed as)
    (hdepth : (ScanState.start.run file 0 as).1.depth = 0)
    (hstring : (ScanState.start.run file 0 as).1.inString = false) :
    scanLines file (as ++ bs) =
      (scanLines file as).merge ((scanLines file bs).relocate (Location.down as.length)) := by
  have hscopes : (ScanState.start.run file 0 as).1.scopes = [] :=
    (ScanState.nested_start.run file as 0).scopes_eq_nil hdepth
  have hjoined : (ScanState.start.run file 0 as).1.joinedUntil ≤ as.length := by
    simpa using ScanState.joinedUntil_run_le file as 0 (Nat.zero_le (0 + as.length))
  obtain ⟨f, hf, hstate⟩ := ScanState.exists_shifts hdepth hstring hscopes hjoined
  have hg : ∀ line column, Location.down as.length ⟨file, line, column⟩ =
      ⟨file, line + as.length, column⟩ := fun _ _ => rfl
  have hsecond : (ScanState.run file (0 + as.length) bs (ScanState.start.run file 0 as).1).2 =
      (ScanState.start.run file 0 bs).2.map (Finding.relocate (Location.down as.length)) := by
    rw [hstate, ScanState.run_rejoin hf hg]
  rw [scanLines, ScanState.run_append file bs hclosed, Outline.ofFindings_append, hsecond,
    Outline.ofFindings_relocate]
  rfl

/-- A dictionary described in both parts, of which the first ends with a value over two lines. -/
theorem scanLines_append_dict :
    let first : List Text := ["namespace eval shop \x7b".toList, "\x7d".toList,
      "set order [dict create id 1 \\".toList, "  total 2]".toList]
    let second : List Text := ["dict set order total 3".toList, "dict set order paid 1".toList,
      "namespace eval shop \x7b proc open \x7b\x7d \x7b\x7d \x7d".toList]
    scanLines ⟨0⟩ (first ++ second) =
        (scanLines ⟨0⟩ first).merge ((scanLines ⟨0⟩ second).relocate (Location.down 4)) ∧
      (scanLines ⟨0⟩ (first ++ second)).namespaces = ["shop".toList] ∧
      (scanLines ⟨0⟩ (first ++ second)).dicts.entries.map Prod.snd =
        [⟨"order".toList, ["id".toList, "total".toList, "paid".toList], none, ⟨⟨0⟩, 2, 4⟩⟩] := by
  refine ⟨scanLines_append ⟨0⟩ _ ?_ ?_ ?_, ?_, ?_⟩
  · unfold Continuation.Closed
    decide
  · decide +kernel
  · decide +kernel
  · decide +kernel
  · decide +kernel

end TclAtlas
