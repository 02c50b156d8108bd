import TclAtlas.Proofs.ByPosition.Literals
import TclAtlas.Proofs.ByPosition.Names
import TclAtlas.Proofs.Scan.Values
import TclAtlas.Scan

/-!
# Proofs/ByPosition/Scanning — a scan that cuts by position never fails

A scan cuts words out of its lines, the values of `set` out of their lines, what literals hold out
of the values, and a backslash off a value that goes on.  The value of a `set` may be put together
from several lines, so that the literal in it is not part of any line; but it takes no more bytes
than these lines, as each line is joined with a space in the place of a backslash
(`Continuation.byteLength_join_le`).  So a scan of a text with positions enough never fails, and
makes the outline of the text (`ByPosition.never_fails`).
-/

namespace TclAtlas

/-! ## Sizes -/

/-- The lines of a text are what is left of it without their ends. -/
theorem Text.lines_sublist (t : Text) : (lines t).flatten.Sublist t := by
  fun_induction lines t with
  | case1 => exact List.Sublist.refl []
  | case2 t ih => exact (ih.cons _).cons _
  | case3 t ih => exact ih.cons _
  | case4 c t _ _ hlines ih => exact (List.nil_sublist t).cons_cons c
  | case5 c t _ _ l ls hlines ih => exact (hlines ▸ ih).cons_cons c

namespace Continuation

/-- The backslash that is dropped takes a byte. -/
theorem byteLength_dropMark {value : Text} (h : goesOn value = true) :
    Text.byteLength (dropMark value) + 1 ≤ Text.byteLength value := by
  obtain ⟨init, rfl⟩ := exists_of_goesOn h
  have hslash : Text.byteLength ['\\'] = 1 := rfl
  have htrim := Text.byteLength_le_of_sublist (Text.trimEnd_sublist init)
  rw [dropMark, List.dropLast_concat, Text.byteLength_append, hslash]
  exact Nat.add_le_add_right htrim 1

theorem byteLength_joinFrom_le : ∀ (ls : List Text) (value : Text),
    Text.byteLength (joinFrom value ls).1 ≤ Text.byteLength (value ++ ls.flatten)
  | [], value => by
    rw [joinFrom, List.flatten_nil, List.append_nil]
    split
    · next h => exact Nat.le_of_succ_le (byteLength_dropMark h)
    · exact Nat.le_refl _
  | l :: ls, value => by
    rw [joinFrom]
    split
    · next h =>
      have hmark := byteLength_dropMark h
      have hline := Text.byteLength_le_of_sublist (Text.trim_sublist l)
      have hspace : ' '.utf8Size = 1 := rfl
      have hrest := byteLength_joinFrom_le ls (dropMark value ++ ' ' :: Text.trim l)
      simp only [Text.byteLength_append, Text.byteLength_cons, List.flatten_cons, hspace] at hrest ⊢
      omega
    · simp

/-- **A value is not longer** than its lines together. -/
theorem byteLength_join_le (first : Text) (below : List Text) :
    Text.byteLength (join first below).1 ≤ Text.byteLength (first ++ below.flatten) := by
  have hjoin := byteLength_joinFrom_le below (Text.trimEnd first)
  have htrim := Text.byteLength_le_of_sublist (Text.trimEnd_sublist first)
  rw [Text.byteLength_append] at hjoin ⊢
  exact hjoin.trans (Nat.add_le_add_right htrim _)

end Continuation

namespace ByPosition

open ScanState

/-! ## Values over several lines -/

/-- A text with no more than a number of bytes. -/
def truncate (t : Text) (length : Nat) : Except Failure Text :=
  if length ≤ Text.byteLength t then cut t 0 length else return t

/-- The value so far without the backslash that continues it, and without the blanks before that. -/
def dropMark (value : Text) : Except Failure Text :=
  truncate value.dropLast (Text.byteLength (Text.trimEnd value.dropLast))

/-- The value joined with as many of the following lines as it goes on over, and their number. -/
def joinFrom (value : Text) : List Text → Except Failure (Text × Nat)
  | [] => do return (← if Continuation.goesOn value then dropMark value else pure value, 0)
  | l :: ls =>
    if Continuation.goesOn value then do
      let (joined, n) ← joinFrom ((← dropMark value) ++ ' ' :: Text.trim l) ls
      return (joined, n + 1)
    else return (value, 0)

theorem dropMark_eq (value : Text) : dropMark value = pure (Continuation.dropMark value) := by
  obtain ⟨blanks, hblanks⟩ : Text.trimEnd value.dropLast <+: value.dropLast :=
    List.rdropWhile_prefix Text.isBlank value.dropLast
  have hle := Text.byteLength_le_of_sublist (Text.trimEnd_sublist value.dropLast)
  rw [dropMark, truncate, if_pos hle, Continuation.dropMark]
  nth_rewrite 1 [← hblanks]
  exact cut_upTo ..

theorem joinFrom_eq : ∀ (ls : List Text) (value : Text),
    joinFrom value ls = pure (Continuation.joinFrom value ls)
  | [], value => by
    rw [joinFrom, Continuation.joinFrom]
    split
    · rw [dropMark_eq, pure_bind]
    · rw [pure_bind]
  | l :: ls, value => by
    rw [joinFrom, Continuation.joinFrom]
    split
    · rw [dropMark_eq, pure_bind, joinFrom_eq ls, pure_bind]
    · rfl

/-! ## Commands -/

/-- **The header on a line**, if there is one. -/
def header? (line : Text) : Except Failure (Option Header) := do
  match ← splitWords line with
  | keyword :: name :: params :: _ =>
    match DefinitionKind.ofKeyword? keyword.text with
    | none => return none
    | some kind =>
      if Text.isSymbolName name.text then
        let list ← content? .brace params.text
        return list.map fun list => ⟨kind, name.text, Parameter.parseList list, name.start⟩
      else return none
  | _ => return none

/-- A definition on a line, whose words are cut out once more. -/
def definitionFindings (s : ScanState) (l : LineAt) : Except Failure (List Finding) := do
  match ← header? l.text with
  | none => return []
  | some h =>
    let d ← definition? h.kind h.name h.params s.current (l.location h.column)
    return d.toList.map .definition

/-- The dictionary that a value describes when it is a literal. -/
def literalFindings (location : Location) (name value : Text) : Except Failure (List Finding) := do
  match ← body? value with
  | none => return []
  | some body => return Finding.ofDict location name (← entries body)

/-- A binding by `set name value`. -/
def matchSet (s : ScanState) (l : LineAt) :
    List Word → Except Failure (ScanState × List Finding)
  | _ :: name :: value :: _ =>
    if Text.isSymbolName name.text then do
      let first ← cut l.text value.start (Text.byteLength l.text)
      let (joined, n) ← joinFrom (Text.trimEnd first) l.below
      let location := l.location name.start
      let described ← literalFindings location name.text joined
      return ({ s with joinedUntil := max s.joinedUntil (l.number + 1 + n) },
        described ++ [.binding ⟨name.text, Text.trim joined, location⟩])
    else return (s, [])
  | _ => return (s, [])

/-- A key by `dict set name key … value`. -/
def dictSetFindings (l : LineAt) : List Word → Except Failure (List Finding)
  | _ :: sub :: name :: key :: _ :: _ =>
    if sub.text = setWord ∧ Text.isSymbolName name.text then do
      match ← identifier? key.text with
      | none => return []
      | some k => return [.dictKeys name.text [k] none (l.location name.start)]
    else return []
  | _ => return []

/-- A block by `namespace eval name {`. -/
def matchBlock (s : ScanState) : List Word → Except Failure (ScanState × List Finding)
  | _ :: _ :: name :: body :: _ => do
    let written ← unwrap name.text
    if body.isBraced ∧ Text.isSymbolName written ∧ s.blockName written ≠ [] then
      let ns := s.blockName written
      return ({ s with scopes := ⟨ns, s.depth + 1⟩ :: s.scopes }, [.declared ns])
    else return (s, [])
  | _ => return (s, [])

/-- Imports by `namespace import`. -/
def importFindings (words : List Word) : Except Failure (List Finding) := do
  let patterns ← (words.drop 2).mapM fun w => unwrap w.text
  return patterns.filterMap fun p => (Import.ofPattern? (Name.unanchored p)).map .imported

/-- **The findings of a line** by its first words. -/
def matchLine (s : ScanState) (l : LineAt) : Except Failure (ScanState × List Finding) := do
  let words ← splitWords l.text
  match words with
  | [] => return (s, [])
  | first :: others =>
    if (DefinitionKind.ofKeyword? first.text).isSome then return (s, ← definitionFindings s l)
    else if first.text = setWord then matchSet s l words
    else if first.text = namespaceWord then
      match others with
      | [] => return (s, [])
      | sub :: _ =>
        if sub.text = evalWord then matchBlock s words
        else if sub.text = importWord then return (s, ← importFindings words)
        else return (s, [])
    else if first.text = DictLiteral.dictWord then return (s, ← dictSetFindings l words)
    else return (s, [])

/-! ## Lines -/

/-- **One line of a scan.** -/
def step (s : ScanState) (l : LineAt) : Except Failure (ScanState × List Finding) := do
  let (s', found) ← if s.skips l then pure (s, []) else matchLine s l
  return (((lexemes l.text).foldl (count (s.isComment l.text)) s').closeScopes, found)

/-- **The lines of a scan in order**, the first of them with the given number. -/
def run (file : FileId) (number : Nat) :
    List Text → ScanState → Except Failure (ScanState × List Finding)
  | [], s => return (s, [])
  | text :: below, s => do
    let (s', found) ← step s ⟨file, number, text, below⟩
    let (s'', later) ← run file (number + 1) below s'
    return (s'', found ++ later)

/-- **The outline of a file given by its text.** -/
def scanText (file : FileId) (text : Text) : Except Failure Outline := do
  let (_, found) ← run file 0 (Text.lines text) .start
  return .ofFindings found

/-! ## Scans do not fail -/

theorem header?_eq {line : Text} (hline : Addressable line) :
    header? line = pure (Header.parse? line) := by
  rw [header?, splitWords_eq hline, pure_bind, Header.parse?]
  rcases hwords : TclAtlas.splitWords line with _ | ⟨keyword, _ | ⟨name, _ | ⟨params, others⟩⟩⟩
  · rfl
  · rfl
  · rfl
  have hparams : Addressable params.text :=
    hline.sublist (sublist_of_mem_splitWords (by simp [hwords]))
  rw [Header.ofWords?]
  simp only
  rcases DefinitionKind.ofKeyword? keyword.text with _ | kind
  · rfl
  · rw [Option.bind_eq_bind, Option.bind_some]
    simp only
    split
    · rw [content?_eq .brace hparams, pure_bind]
      cases Delimiter.brace.content? params.text <;> rfl
    · rfl

theorem definitionFindings_eq (s : ScanState) {l : LineAt} (hl : Addressable l.text) :
    definitionFindings s l = pure (s.definitionFindings l (TclAtlas.splitWords l.text)) := by
  rw [definitionFindings, header?_eq hl, pure_bind, ScanState.definitionFindings, Header.parse?]
  rcases Header.ofWords? (TclAtlas.splitWords l.text) with _ | h
  · rfl
  · simp only [definition?_eq, pure_bind]
    cases Definition.make? h.kind h.name h.params s.current (l.location h.column) <;> rfl

theorem literalFindings_eq (location : Location) (name : Text) {value : Text}
    (hvalue : Addressable value) :
    literalFindings location name value = pure (ScanState.literalFindings location name value) := by
  rw [literalFindings, body?_eq hvalue, pure_bind, ScanState.literalFindings]
  rcases hbody : DictLiteral.body? value with _ | body
  · rfl
  · simp only [entries_eq (hvalue.sublist (DictLiteral.sublist_of_body? hbody)), pure_bind]

theorem matchSet_eq (s : ScanState) {l : LineAt} (hl : Addressable (l.text :: l.below).flatten) :
    matchSet s l (TclAtlas.splitWords l.text) =
      pure (s.matchSet l (TclAtlas.splitWords l.text)) := by
  rcases hwords : TclAtlas.splitWords l.text with _ | ⟨first, _ | ⟨name, _ | ⟨value, others⟩⟩⟩
  · rfl
  · rfl
  · rfl
  rw [matchSet, ScanState.matchSet]
  split
  · have hcut := cut_from_word (t := l.text) (w := value) (by simp [hwords])
    have hvalue : Addressable
        (Continuation.join (Text.dropBytes value.start l.text) l.below).1 := by
      refine Nat.lt_of_le_of_lt (Continuation.byteLength_join_le _ _) (hl.sublist ?_)
      exact (Text.dropBytes_sublist _ _).append (List.Sublist.refl _)
    have hjoin : joinFrom (Text.trimEnd (Text.dropBytes value.start l.text)) l.below =
        pure (Continuation.join (Text.dropBytes value.start l.text) l.below) := joinFrom_eq ..
    rw [hcut, pure_bind, hjoin, pure_bind]
    simp only [literalFindings_eq _ _ hvalue, pure_bind]
  · rfl

theorem dictSetFindings_eq (l : LineAt) (words : List Word) :
    dictSetFindings l words = pure (ScanState.dictSetFindings l words) := by
  rcases words with _ | ⟨first, _ | ⟨sub, _ | ⟨name, _ | ⟨key, _ | ⟨value, others⟩⟩⟩⟩⟩
  · rfl
  · rfl
  · rfl
  · rfl
  · rfl
  rw [dictSetFindings, ScanState.dictSetFindings]
  split
  · rw [identifier?_eq, pure_bind]
    cases Text.identifier? key.text <;> rfl
  · rfl

theorem matchBlock_eq (s : ScanState) (words : List Word) :
    matchBlock s words = pure (s.matchBlock words) := by
  rcases words with _ | ⟨first, _ | ⟨sub, _ | ⟨name, _ | ⟨body, others⟩⟩⟩⟩
  · rfl
  · rfl
  · rfl
  · rfl
  rw [matchBlock, unwrap_eq, pure_bind, ScanState.matchBlock]
  simp only
  split <;> rfl

theorem importFindings_eq (words : List Word) :
    importFindings words = pure (ScanState.importFindings words) := by
  have hpatterns : (words.drop 2).mapM (fun w => unwrap w.text) =
      pure ((words.drop 2).map fun w => Text.unwrap w.text) :=
    mapM_eq_pure fun w _ => unwrap_eq w.text
  rw [importFindings, hpatterns, pure_bind, List.filterMap_map]
  rfl

theorem matchLine_eq (s : ScanState) {l : LineAt} (hl : Addressable (l.text :: l.below).flatten) :
    matchLine s l = pure (s.matchLine l) := by
  have htext : Addressable l.text := hl.sublist (List.sublist_append_left ..)
  rw [matchLine, splitWords_eq htext, pure_bind, ScanState.matchLine, definitionFindings_eq s htext,
    matchSet_eq s hl]
  rcases TclAtlas.splitWords l.text with _ | ⟨first, others⟩
  · rfl
  simp only [matchBlock_eq, importFindings_eq, dictSetFindings_eq, pure_bind]
  split_ifs
  · rfl
  · rfl
  · rcases others with _ | ⟨sub, more⟩
    · rfl
    · simp only
      split_ifs <;> rfl
  · rfl
  · rfl

theorem step_eq (s : ScanState) {l : LineAt} (hl : Addressable (l.text :: l.below).flatten) :
    step s l = pure (s.step l) := by
  rw [step, matchLine_eq s hl, ScanState.step]
  split <;> rfl

/-- **The lines of a scan** do not fail one after the other. -/
theorem run_eq (file : FileId) : ∀ (lines : List Text) (number : Nat) (s : ScanState),
    Addressable lines.flatten → run file number lines s = pure (s.run file number lines)
  | [], _, _, _ => rfl
  | text :: below, number, s, h => by
    have hbelow : Addressable below.flatten := h.sublist (List.sublist_append_right ..)
    rw [run, step_eq s h, pure_bind]
    simp only [run_eq file below (number + 1) _ hbelow, pure_bind]
    rfl

theorem scanText_eq (file : FileId) {t : Text} (ht : Addressable t) :
    scanText file t = pure (TclAtlas.scanText file t) := by
  rw [scanText, run_eq file _ 0 .start (ht.sublist (Text.lines_sublist t)), pure_bind]
  rfl

/-- **Whatever a text looks like**, its parts are cut out between characters, and reading it by
position never fails: neither scanning it, nor reading it as the header of a definition, as a
dictionary literal or what one holds, or as a line that substitutes variables. -/
theorem never_fails {t : Text} (ht : Addressable t) :
    (∀ file, scanText file t = .ok (TclAtlas.scanText file t)) ∧
      header? t = .ok (Header.parse? t) ∧
      body? t = .ok (DictLiteral.body? t) ∧
      entries t = .ok (DictLiteral.entries t) ∧
      references t = .ok (TclAtlas.references t) :=
  ⟨fun file => scanText_eq file ht, header?_eq ht, body?_eq ht, entries_eq ht, references_eq ht⟩

/-- A literal that is not closed, with characters of several bytes, a name cut off by one of them,
and a backslash at its end. -/
theorem never_fails_unclosed :
    let t := "[ dict create é \x7b$aö\u3000\"😀\\".toList
    Addressable t ∧ body? t = .ok (some " é \x7b$aö\u3000\"😀\\".toList) ∧
      references t = .ok [⟨['a'], 18⟩] := by
  intro t
  have ht : Addressable t := by decide +kernel
  have hbody : DictLiteral.body? t = some " é \x7b$aö\u3000\"😀\\".toList := by decide +kernel
  have hreferences : TclAtlas.references t = [⟨['a'], 18⟩] := by decide +kernel
  obtain ⟨-, -, h, -, h'⟩ := never_fails ht
  exact ⟨ht, h.trans (congrArg _ hbody), h'.trans (congrArg _ hreferences)⟩

end ByPosition

end TclAtlas
