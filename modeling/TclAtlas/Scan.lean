import TclAtlas.Definition.Header
import TclAtlas.Outline
import TclAtlas.Scan.Continuation

/-!
# Scan — reading a script line by line

A scan walks over the lines of a script, keeping count of open braces, of whether a quoted string is
open and of the namespace blocks around the current line.  A line that starts with one of a few
commands makes findings:

* `proc` and `method` define a callable,
* `set` binds a variable, and describes a dictionary when the value is a dictionary literal,
* `dict set` adds a key to a dictionary,
* `namespace eval` opens a block, `namespace import` imports.

A line inside a quoted string, a comment, or a line already joined into the value of an earlier
`set` makes none, but its braces count (and its quotes, unless it is a comment).  A scan never
fails: lines it does not understand make no findings.

Reading the lines in order by `Scanner.scanLine` is one run over them (`Scanner.foldl_scanLine`).
-/

namespace TclAtlas

/-! ## The state of a scan -/

/-- **A namespace block** that is open, with the brace depth inside it. -/
structure Scope where
  name : Text
  depth : Nat
  deriving DecidableEq, Repr

/-- **What a scan knows** between two lines. -/
structure ScanState where
  /-- The number of open braces. -/
  depth : Nat
  /-- Whether a quoted string is open. -/
  inString : Bool
  /-- The lines before this one may be joined into an earlier value. -/
  joinedUntil : Nat
  /-- The open namespace blocks, innermost first. -/
  scopes : List Scope
  deriving DecidableEq, Repr

/-- **A line in its place**: the file, the number of the line, and the lines below it. -/
structure LineAt where
  file : FileId
  number : Nat
  text : Text
  below : List Text

/-- The place of a byte column of a line. -/
def LineAt.location (l : LineAt) (column : Nat) : Location := ⟨l.file, l.number, column⟩

namespace ScanState

/-- The state before the first line. -/
def start : ScanState := ⟨0, false, 0, []⟩

/-- **The innermost namespace** that is open. -/
def current (s : ScanState) : Option Text := s.scopes.head?.map Scope.name

/-! ## Commands -/

/-- The words that introduce commands. -/
def setWord : Text := ['s', 'e', 't']

@[inherit_doc setWord]
def namespaceWord : Text := ['n', 'a', 'm', 'e', 's', 'p', 'a', 'c', 'e']

@[inherit_doc setWord]
def evalWord : Text := ['e', 'v', 'a', 'l']

@[inherit_doc setWord]
def importWord : Text := ['i', 'm', 'p', 'o', 'r', 't']

/-- A definition on a line. -/
def definitionFindings (s : ScanState) (l : LineAt) (words : List Word) : List Finding :=
  match Header.ofWords? words with
  | none => []
  | some h =>
    match Definition.make? h.kind h.name h.params s.current (l.location h.column) with
    | none => []
    | some d => [.definition d]

/-- The dictionary that a value describes when it is a literal. -/
def literalFindings (location : Location) (name value : Text) : List Finding :=
  match DictLiteral.body? value with
  | none => []
  | some body => Finding.ofDict location name (DictLiteral.entries body)

/-- A binding by `set name value`.  The value is the rest of the line from its first word on, joined
with the lines it goes on over. -/
def matchSet (s : ScanState) (l : LineAt) : List Word → ScanState × List Finding
  | _ :: name :: value :: _ =>
    if Text.isSymbolName name.text then
      let (joined, n) := Continuation.join (Text.dropBytes value.start l.text) l.below
      let location := l.location name.start
      ({ s with joinedUntil := max s.joinedUntil (l.number + 1 + n) },
        literalFindings location name.text joined ++
          [.binding ⟨name.text, Text.trim joined, location⟩])
    else (s, [])
  | _ => (s, [])

/-- A key by `dict set name key … value`. -/
def dictSetFindings (l : LineAt) : List Word → List Finding
  | _ :: sub :: name :: key :: _ :: _ =>
    if sub.text = setWord ∧ Text.isSymbolName name.text then
      match Text.identifier? key.text with
      | none => []
      | some k => [.dictKeys name.text [k] none (l.location name.start)]
    else []
  | _ => []

/-- The namespace that a block of the given name opens: an anchored name starts from the root, any
other name belongs to the innermost open namespace. -/
def blockName (s : ScanState) (written : Text) : Text :=
  if Name.isAnchored written then Name.unanchored written else Name.qualify s.current written

/-- A block by `namespace eval name {`. -/
def matchBlock (s : ScanState) : List Word → ScanState × List Finding
  | _ :: _ :: name :: body :: _ =>
    let written := Text.unwrap name.text
    if body.isBraced ∧ Text.isSymbolName written ∧ s.blockName written ≠ [] then
      let ns := s.blockName written
      ({ s with scopes := ⟨ns, s.depth + 1⟩ :: s.scopes }, [.declared ns])
    else (s, [])
  | _ => (s, [])

/-- Imports by `namespace import`. -/
def importFindings (words : List Word) : List Finding :=
  (words.drop 2).filterMap fun w =>
    (Import.ofPattern? (Name.unanchored (Text.unwrap w.text))).map .imported

/-- **The findings of a line** by its first words, and the state with the blocks it opens and the
lines it joins. -/
def matchLine (s : ScanState) (l : LineAt) : ScanState × List Finding :=
  let words := splitWords l.text
  match words with
  | [] => (s, [])
  | first :: others =>
    if (DefinitionKind.ofKeyword? first.text).isSome then (s, s.definitionFindings l words)
    else if first.text = setWord then s.matchSet l words
    else if first.text = namespaceWord then
      match others with
      | [] => (s, [])
      | sub :: _ =>
        if sub.text = evalWord then s.matchBlock words
        else if sub.text = importWord then (s, importFindings words)
        else (s, [])
    else if first.text = DictLiteral.dictWord then (s, dictSetFindings l words)
    else (s, [])

/-! ## Braces and quotes -/

/-- The state after a lexeme; in a comment quotes do not count. -/
def count (comment : Bool) (s : ScanState) (l : Lexeme) : ScanState :=
  match l.kind with
  | .quote => if comment then s else { s with inString := !s.inString }
  | .openBrace => if s.inString then s else { s with depth := s.depth + 1 }
  | .closeBrace => if s.inString then s else { s with depth := s.depth - 1 }
  | _ => s

/-- The state with the blocks closed whose braces are no longer open. -/
def closeScopes (s : ScanState) : ScanState :=
  { s with scopes := s.scopes.dropWhile fun scope => s.depth < scope.depth }

/-! ## Lines -/

/-- Whether a line is a comment: no string is open and its first character that is not blank is a
number sign. -/
def isComment (s : ScanState) (line : Text) : Bool :=
  !s.inString && (Text.trimStart line).head? == some '#'

/-- Whether a line makes no findings, whatever its words. -/
def skips (s : ScanState) (l : LineAt) : Bool :=
  s.inString || s.isComment l.text || l.number < s.joinedUntil

/-- **One line of a scan.** -/
def step (s : ScanState) (l : LineAt) : ScanState × List Finding :=
  let (s', found) := if s.skips l then (s, []) else s.matchLine l
  (((lexemes l.text).foldl (count (s.isComment l.text)) s').closeScopes, found)

/-- **The lines of a scan in order**, the first of them with the given number. -/
def run (file : FileId) (number : Nat) : List Text → ScanState → ScanState × List Finding
  | [], s => (s, [])
  | text :: below, s =>
    let (s', found) := s.step ⟨file, number, text, below⟩
    let (s'', later) := run file (number + 1) below s'
    (s'', found ++ later)

end ScanState

/-! ## Scans -/

/-- **A scan under way**: its state and the outline so far. -/
structure Scanner where
  state : ScanState
  outline : Outline

namespace Scanner

/-- A scan that has seen no line. -/
def start : Scanner := ⟨.start, .empty⟩

/-- The scan after a line. -/
def step (s : Scanner) (l : LineAt) : Scanner :=
  let (state, found) := s.state.step l
  ⟨state, s.outline.addAll found⟩

/-- **Scan one of the lines of a file**, in any order; a number past the last line does nothing. -/
def scanLine (file : FileId) (lines : List Text) (s : Scanner) (number : Nat) : Scanner :=
  match lines.drop number with
  | [] => s
  | text :: below => s.step ⟨file, number, text, below⟩

theorem foldl_scanLine_range' (file : FileId) (lines : List Text) :
    ∀ (rest : List Text) (number : Nat) (s : Scanner), lines.drop number = rest →
      (List.range' number rest.length).foldl (scanLine file lines) s =
        ⟨(s.state.run file number rest).1, s.outline.addAll (s.state.run file number rest).2⟩
  | [], _, _, _ => rfl
  | text :: below, number, s, h => by
    have hstep : scanLine file lines s number = s.step ⟨file, number, text, below⟩ := by
      simp [scanLine, h]
    have hbelow : lines.drop (number + 1) = below := by
      rw [← List.tail_drop, h, List.tail_cons]
    rw [List.length_cons, List.range'_succ, List.foldl_cons, hstep,
      foldl_scanLine_range' file lines below (number + 1) _ hbelow]
    simp [step, ScanState.run]

end Scanner

/-- **The outline of a file given by its lines.** -/
def scanLines (file : FileId) (lines : List Text) : Outline :=
  .ofFindings (ScanState.start.run file 0 lines).2

/-- **The outline of a file given by its text.** -/
def scanText (file : FileId) (text : Text) : Outline := scanLines file (Text.lines text)

/-- **Scanning every line once, in order, gives the outline of the file.** -/
theorem Scanner.foldl_scanLine (file : FileId) (lines : List Text) :
    ((List.range lines.length).foldl (Scanner.scanLine file lines) .start).outline =
      scanLines file lines := by
  rw [List.range_eq_range', Scanner.foldl_scanLine_range' file lines lines 0 .start rfl]
  rfl

end TclAtlas
