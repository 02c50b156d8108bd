import TclAtlas.Proofs.Outline.Merging
import TclAtlas.Proofs.Script.Headers

/-!
# Proofs/Script/Attribution — the namespaces of the definitions of a script

A part of a script leaves the state of a scan as it was: its braces are closed again, and so are the
blocks it opens.  In between the innermost block is the one around the line, since a block is opened
before its brace counts and closed when its brace is.  So the scan finds just what the script
declares, each callable in the namespace of the blocks around it (`Item.run_lines`).
-/

namespace TclAtlas

/-! ## Lines without effect -/

theorem LexemeKind.ofChar_ne_of_plain {c : Char} (h : c ≠ '{' ∧ c ≠ '}' ∧ c ≠ '"' ∧ c ≠ '\\') :
    ofChar c ≠ quote ∧ ofChar c ≠ openBrace ∧ ofChar c ≠ closeBrace := by
  simp only [ofChar, h, if_false]
  repeat' split
  all_goals decide

namespace Script

theorem IsPlain.append {s t : Text} (hs : IsPlain s) (ht : IsPlain t) : IsPlain (s ++ t) :=
  fun c hc => (List.mem_append.mp hc).elim (hs c) (ht c)

theorem IsPlain.not_mem {t : Text} (ht : IsPlain t) : '\\' ∉ t := fun h => (ht _ h).2.2.2 rfl

theorem plain_of_isNameChar {c : Char} (hc : Text.isNameChar c = true) :
    c ≠ '{' ∧ c ≠ '}' ∧ c ≠ '"' ∧ c ≠ '\\' := by
  refine ⟨?_, ?_, ?_, ?_⟩ <;> exact Text.ne_of_isNameChar hc (by decide)

theorem Indent.isPlain (i : Indent) : IsPlain i.text := by
  intro c hc
  rcases i.blank c hc with rfl | rfl <;> decide

theorem BodyLine.isPlain_dropReturn (t : BodyLine) : IsPlain (dropReturn t.text) := by
  rcases dropReturn_cases t.text with h | h
  · exact h.symm ▸ t.plain
  · exact fun c hc => t.plain c (h ▸ List.mem_append_left _ hc)

/-- A carriage return at the end of a line does not change what the line starts with. -/
theorem BodyLine.noCommand_dropReturn (t : BodyLine) :
    ∀ word ∈ commandWords, ¬StartsWith word (dropReturn t.text) := by
  rintro word hword ⟨gap, after, ht, hgap, hafter⟩
  refine t.noCommand word hword ?_
  rcases dropReturn_cases t.text with h | h
  · exact ⟨gap, after, h ▸ ht, hgap, hafter⟩
  · refine ⟨gap, after ++ ['\r'], by rw [h, ht]; simp, hgap, fun c hc => ?_⟩
    cases after with
    | nil =>
      obtain rfl : '\r' = c := by simpa using hc
      rfl
    | cons d ds => exact hafter c hc

theorem isPlain_of_all_isNameChar {t : Text} (ht : t.all Text.isNameChar = true) : IsPlain t :=
  fun c hc => plain_of_isNameChar (List.all_eq_true.mp ht c hc)

theorem isPlain_space : IsPlain [' '] := by simp [IsPlain]

theorem isPlain_keyword (k : DefinitionKind) : IsPlain k.keyword := by
  cases k <;> exact isPlain_of_all_isNameChar (by decide)

theorem PlainName.isPlain (n : PlainName) : IsPlain n.text :=
  isPlain_of_all_isNameChar (List.all_eq_true.mpr n.plain)

theorem isPlain_joined {separator : Text} (h : IsPlain separator) (ns : List PlainName) :
    IsPlain (joined separator ns) :=
  fun c hc => (mem_joined hc).elim plain_of_isNameChar (h c)

theorem BlockName.isPlain_text (b : BlockName) : IsPlain b.text := by
  intro c hc
  rcases b.isNameChar_or_of_mem c hc with hc | rfl
  · exact plain_of_isNameChar hc
  · decide

end Script

open Script

namespace ScanState

variable {s : ScanState}

/-- The state behind an opening brace. -/
def deeper (s : ScanState) : ScanState := { s with depth := s.depth + 1 }

/-- **The state behind the header of a block.** -/
def enter (ns : Text) (s : ScanState) : ScanState :=
  { s with depth := s.depth + 1, scopes := ⟨ns, s.depth + 1⟩ :: s.scopes }

/-- **The state behind a closing brace** that ends a line. -/
def leave (s : ScanState) : ScanState := closeScopes { s with depth := s.depth - 1 }

/-- **Blocks that are not too deep stay open.** -/
theorem closeScopes_eq_self (h : ∀ scope ∈ s.scopes.head?, scope.depth ≤ s.depth) :
    s.closeScopes = s := by
  rcases s with ⟨depth, inString, joinedUntil, _ | ⟨scope, scopes⟩⟩
  · rfl
  · have hle : scope.depth ≤ depth := h scope rfl
    simp [closeScopes, hle]

theorem leave_deeper (h : ∀ scope ∈ s.scopes.head?, scope.depth ≤ s.depth) : s.deeper.leave = s :=
  closeScopes_eq_self h

/-- **A block is closed when its brace is.** -/
theorem leave_enter (h : ∀ scope ∈ s.scopes.head?, scope.depth ≤ s.depth) (ns : Text) :
    (s.enter ns).leave = s := by
  have hpop : (s.enter ns).leave = s.closeScopes := by
    unfold leave enter closeScopes
    rw [List.dropWhile_cons_of_pos (by simp)]
    rfl
  rw [hpop, closeScopes_eq_self h]

/-- Lexemes of which none counts do not count together. -/
theorem foldl_count_eq_self {comment : Bool} : ∀ {ls : List Lexeme},
    (∀ l ∈ ls, s.count comment l = s) → ls.foldl (count comment) s = s
  | [], _ => rfl
  | l :: ls, h => by
    rw [List.foldl_cons, h l List.mem_cons_self,
      foldl_count_eq_self fun m hm => h m (List.mem_cons_of_mem l hm)]

/-- **Plain text does not count.** -/
theorem foldl_count_of_plain (comment : Bool) (s : ScanState) {t : Text} (ht : IsPlain t) :
    (lexemes t).foldl (count comment) s = s := by
  refine foldl_count_eq_self fun l hl => ?_
  obtain ⟨c, hc, hkind⟩ := exists_ofChar_of_mem ht.not_mem hl
  obtain ⟨hquote, hopen, hclose⟩ := LexemeKind.ofChar_ne_of_plain (ht c hc)
  rw [hkind] at hquote hopen hclose
  rw [count.eq_def]
  split <;> simp_all

/-- After plain text a brace counts. -/
theorem foldl_count_append_cons (comment : Bool) (s : ScanState) {t : Text} (ht : IsPlain t)
    {c : Char} (hc : c = '{' ∨ c = '}') (u : Text) :
    (lexemes (t ++ c :: u)).foldl (count comment) s =
      (lexemes u).foldl (count comment) (s.count comment ⟨.ofChar c, [c]⟩) := by
  have hne : c ≠ '\\' := by rcases hc with rfl | rfl <;> decide
  have hruns : (LexemeKind.ofChar c).runs = false := by rcases hc with rfl | rfl <;> decide
  rw [lexemes_append_cons_of_single hne hruns ht.not_mem, List.foldl_append,
    foldl_count_of_plain comment s ht, List.foldl_cons]

/-- The braces of a parameter list close each other. -/
theorem foldl_count_callable (comment : Bool) (hs : s.inString = false) (opening : Indent)
    (c : Callable) :
    (lexemes (opening.text ++ c.header)).foldl (count comment) s = s.deeper := by
  have hbraces : opening.text ++ c.header =
      (opening.text ++ (c.kind.keyword ++ ([' '] ++ (c.name.text ++ [' '])))) ++
        '{' :: (joined [' '] c.params ++ '}' :: ([' '] ++ ['{'])) := by
    simp [Callable.header, Callable.list]
  have hfirst := opening.isPlain.append ((isPlain_keyword c.kind).append
    (isPlain_space.append (c.name.isPlain.append isPlain_space)))
  rw [hbraces, foldl_count_append_cons comment s hfirst (Or.inl rfl),
    foldl_count_append_cons comment _ (isPlain_joined isPlain_space c.params) (Or.inr rfl),
    foldl_count_append_cons comment _ isPlain_space (Or.inl rfl)]
  simp [count, LexemeKind.ofChar, hs, lexemes, deeper]

theorem foldl_count_block (comment : Bool) (hs : s.inString = false) (opening : Indent)
    (b : BlockName) :
    (lexemes (opening.text ++ b.header)).foldl (count comment) s = s.deeper := by
  have hbraces : opening.text ++ b.header =
      (opening.text ++ (namespaceWord ++ ([' '] ++ (evalWord ++ ([' '] ++ (b.text ++ [' '])))))) ++
        ['{'] := by
    simp [BlockName.header]
  have hns : IsPlain namespaceWord := isPlain_of_all_isNameChar (by decide)
  have heval : IsPlain evalWord := isPlain_of_all_isNameChar (by decide)
  have hfirst := opening.isPlain.append (hns.append (isPlain_space.append (heval.append
    (isPlain_space.append (b.isPlain_text.append isPlain_space)))))
  rw [hbraces, foldl_count_append_cons comment s hfirst (Or.inl rfl)]
  simp [count, LexemeKind.ofChar, hs, lexemes, deeper]

/-- A line whose first word is no command makes no findings. -/
theorem matchLine_of_no_command {l : LineAt}
    (h : ∀ w ∈ (splitWords l.text).head?, w.text ∉ commandWords) : s.matchLine l = (s, []) := by
  rw [matchLine]
  rcases hwords : splitWords l.text with _ | ⟨first, others⟩
  · rfl
  · have hfirst : first.text ∉ commandWords := h first (by simp [hwords])
    simp only [commandWords, List.mem_cons, List.not_mem_nil, or_false, not_or] at hfirst
    simp [DefinitionKind.ofKeyword?, hfirst]

theorem step_of_matchLine {s' : ScanState} {l : LineAt} {found : List Finding}
    (hskips : s.skips l = false) (hmatch : s.matchLine l = (s', found)) :
    s.step l = (((lexemes l.text).foldl (count (s.isComment l.text)) s').closeScopes, found) := by
  simp [step, hskips, hmatch]

theorem step_of_no_command {l : LineAt}
    (h : ∀ w ∈ (splitWords l.text).head?, w.text ∉ commandWords) :
    s.step l = (((lexemes l.text).foldl (count (s.isComment l.text)) s).closeScopes, []) := by
  rw [step, matchLine_of_no_command h, ite_self]

/-! ## The state around a part of a script -/

/-- **A state at a line in the block of a path**, at its start or between two parts: no string is
open, the line is not joined, the innermost block is that of the path, and its brace is open. -/
structure Within (s : ScanState) (path : List PlainName) (line : Nat) : Prop where
  inString : s.inString = false
  joinedUntil_le : s.joinedUntil ≤ line
  current : s.current = owner path
  inner : ∀ scope ∈ s.scopes.head?, scope.depth ≤ s.depth

namespace Within

variable {path : List PlainName} {line : Nat}

theorem start : Within .start [] 0 := ⟨rfl, Nat.le_refl 0, rfl, by simp [ScanState.start]⟩

theorem later (h : s.Within path line) (k : Nat) : s.Within path (line + k) :=
  { h with joinedUntil_le := Nat.le_add_right_of_le h.joinedUntil_le }

theorem inner_deeper (h : s.Within path line) :
    ∀ scope ∈ s.deeper.scopes.head?, scope.depth ≤ s.deeper.depth :=
  fun scope hscope => Nat.le_succ_of_le (h.inner scope hscope)

/-- The state in a block that has been opened. -/
theorem opened (h : s.Within path line) (b : BlockName) :
    (s.enter (joined Name.separator (b.path path))).Within (b.path path) (line + 1) where
  inString := h.inString
  joinedUntil_le := Nat.le_add_right_of_le h.joinedUntil_le
  current := by
    obtain ⟨n, ns, hb⟩ := b.exists_path_eq_cons path
    rw [hb]
    rfl
  inner := by simp [enter]

/-- A header line is read. -/
theorem skips_eq_false (h : s.Within path line) (file : FileId) (opening : Indent) {t : Text}
    {c : Char} (ht : t.head? = some c) (hblank : Text.isBlank c = false) (hc : c ≠ '#')
    (below : List Text) : s.skips ⟨file, line, opening.text ++ t, below⟩ = false := by
  obtain ⟨cs, rfl⟩ := List.head?_eq_some_iff.mp ht
  have hopening : ∀ d ∈ opening.text, Text.isBlank d = true := by
    intro d hd
    rcases opening.blank d hd with rfl | rfl <;> decide
  have htrim : Text.trimStart (opening.text ++ c :: cs) = c :: cs := by
    rw [Text.trimStart, List.dropWhile_append_of_pos hopening,
      List.dropWhile_cons_of_neg (by simp [hblank])]
  have hjoined : ¬line < s.joinedUntil := Nat.not_lt.mpr h.joinedUntil_le
  simp [skips, isComment, h.inString, htrim, hc, hjoined]

/-- **The header of a callable** defines it in the block of the path, and opens a brace. -/
theorem step_callable (h : s.Within path line) (file : FileId) (opening : Indent) (c : Callable)
    (below : List Text) : s.step ⟨file, line, opening.text ++ c.header, below⟩ =
      (s.deeper, [.definition (Leaf.definition file ⟨path, c, line, opening⟩)]) := by
  have hskips : s.skips ⟨file, line, opening.text ++ c.header, below⟩ = false := by
    rcases c with ⟨_ | _, name, params⟩ <;>
      exact h.skips_eq_false file opening rfl (by decide) (by decide) below
  have hfound : s.definitionFindings ⟨file, line, opening.text ++ c.header, below⟩
      (splitWords (opening.text ++ c.header)) =
        [.definition (Leaf.definition file ⟨path, c, line, opening⟩)] := by
    have hanchor : Name.isAnchored c.name.text = false := isAnchored_joined [c.name]
    simp [definitionFindings, c.ofWords?_header, Definition.make?, c.name.isQualified_text,
      c.name.ne_nil, h.current, asNamespace_owner, hanchor, Leaf.definition, LineAt.location]
  have hmatch : s.matchLine ⟨file, line, opening.text ++ c.header, below⟩ =
      (s, [.definition (Leaf.definition file ⟨path, c, line, opening⟩)]) := by
    obtain ⟨m, n, hwords⟩ := c.words_header opening
    rw [hwords] at hfound
    simp [matchLine, hwords, hfound]
  rw [step_of_matchLine hskips hmatch, foldl_count_callable _ h.inString,
    closeScopes_eq_self h.inner_deeper]

/-- **The header of a block** opens it, and its brace. -/
theorem step_block (h : s.Within path line) (file : FileId) (opening : Indent) (b : BlockName)
    (below : List Text) : s.step ⟨file, line, opening.text ++ b.header, below⟩ =
      (s.enter (joined Name.separator (b.path path)),
        [.declared (joined Name.separator (b.path path))]) := by
  have hskips : s.skips ⟨file, line, opening.text ++ b.header, below⟩ = false :=
    h.skips_eq_false file opening rfl (by decide) (by decide) below
  have hmatch : s.matchLine ⟨file, line, opening.text ++ b.header, below⟩ =
      ({ s with scopes := ⟨joined Name.separator (b.path path), s.depth + 1⟩ :: s.scopes },
        [.declared (joined Name.separator (b.path path))]) := by
    obtain ⟨k, l, m, n, hwords⟩ := b.words_header opening
    have hkeyword : DefinitionKind.ofKeyword? namespaceWord = none := by decide
    have hset : namespaceWord ≠ setWord := by decide
    simp [matchLine, hwords, hkeyword, hset, matchBlock, Word.isBraced, b.unwrap_text,
      b.isSymbolName_text, blockName_text b h.current, b.joined_path_ne_nil path]
  rw [step_of_matchLine hskips hmatch, foldl_count_block _ (by exact h.inString),
    closeScopes_eq_self (by simp [deeper])]
  rfl

end Within

/-! ## Body lines and closing braces -/

/-- A plain line that starts with no command does nothing. -/
theorem step_of_plain (hinner : ∀ scope ∈ s.scopes.head?, scope.depth ≤ s.depth) {l : LineAt}
    (hplain : IsPlain l.text) (hno : ∀ word ∈ commandWords, ¬StartsWith word l.text) :
    s.step l = (s, []) := by
  have hwords : ∀ w ∈ (splitWords l.text).head?, w.text ∉ commandWords := by
    intro w hw hmem
    obtain ⟨ws, hws⟩ := List.head?_eq_some_iff.mp hw
    obtain ⟨gap, after, ht, hgap, hafter⟩ := (hws ▸ splitWords_spaced l.text).of_cons
    exact hno w.text hmem ⟨gap, after, ht, hgap, hafter⟩
  rw [step_of_no_command hwords, foldl_count_of_plain _ s hplain, closeScopes_eq_self hinner]

/-- **The lines of a body do nothing.** -/
theorem run_body (hinner : ∀ scope ∈ s.scopes.head?, scope.depth ≤ s.depth) (file : FileId)
    (rest : List Text) : ∀ (body : List BodyLine) (line : Nat),
      run file line ((body.map BodyLine.text).map dropReturn ++ rest) s =
        run file (line + body.length) rest s
  | [], _ => rfl
  | t :: body, line => by
    have hstep : ∀ below, s.step ⟨file, line, dropReturn t.text, below⟩ = (s, []) := by
      intro below
      exact step_of_plain hinner t.isPlain_dropReturn t.noCommand_dropReturn
    have hlength : line + (t :: body).length = line + 1 + body.length := by
      rw [List.length_cons]
      omega
    simp only [List.map_cons, List.cons_append, run, hstep, run_body hinner file rest body
      (line + 1), hlength, List.nil_append]

/-- **A closing brace** closes the blocks whose braces it closes. -/
theorem step_closing (hs : s.inString = false) (file : FileId) (line : Nat) (closing : Indent)
    (below : List Text) : s.step ⟨file, line, closing.text ++ ['}'], below⟩ =
      (s.leave, []) := by
  have hwords : splitWords (closing.text ++ ['}']) =
      [⟨['}'], Text.byteLength closing.text⟩] := by
    rw [splitWords_eq_wordsFrom, wordsFrom_gap_append closing.isGap, Nat.zero_add]
    rfl
  have hno : ∀ w ∈ (splitWords (closing.text ++ ['}'])).head?, w.text ∉ commandWords := by
    have hbrace : ['}'] ∉ commandWords := by decide
    rw [hwords]
    rintro w ⟨⟩
    exact hbrace
  rw [step_of_no_command hno, foldl_count_append_cons _ s closing.isPlain (Or.inr rfl)]
  simp [count, LexemeKind.ofChar, hs, lexemes, leave]

/-- A line before the others. -/
theorem run_cons_of_step {file : FileId} {line : Nat} {text : Text} {below : List Text}
    {s' : ScanState} {found : List Finding}
    (hstep : s.step ⟨file, line, text, below⟩ = (s', found)) :
    run file line (text :: below) s =
      ((run file (line + 1) below s').1, found ++ (run file (line + 1) below s').2) := by
  simp [run, hstep]

theorem run_closing (hs : s.inString = false) (file : FileId) (line : Nat) (closing : Indent)
    (rest : List Text) : run file line (dropReturn (closing.text ++ ['}']) :: rest) s =
      run file (line + 1) rest s.leave := by
  have hreturn : dropReturn (closing.text ++ ['}']) = closing.text ++ ['}'] :=
    dropReturn_of_getLast? (by simp)
  rw [hreturn, run_cons_of_step (step_closing hs file line closing rest)]
  rfl

end ScanState

/-! ## Parts of a script -/

namespace Script

open ScanState

/-- The finding that an entry makes. -/
def Entry.finding (file : FileId) : Entry → Finding
  | .block path => .declared (joined Name.separator path)
  | .leaf l => .definition (l.definition file)

mutual

/-- **A part of a script makes the findings of what it declares**, and leaves the state as it
was. -/
theorem Item.run_lines (file : FileId) (rest : List Text) : ∀ (i : Item) {s : ScanState}
    {path : List PlainName} {line : Nat}, s.Within path line →
      run file line (i.lines.map dropReturn ++ rest) s =
        ((run file (line + i.lines.length) rest s).1,
          (i.entries path line).map (Entry.finding file) ++
            (run file (line + i.lines.length) rest s).2)
  | .block opening closing name items, s, path, line, h => by
    have hheader : dropReturn (opening.text ++ name.header) = opening.text ++ name.header :=
      dropReturn_of_getLast? (by simp [BlockName.header, List.getLast?_cons])
    have hlength : line + (Item.block opening closing name items).lines.length =
        line + 1 + (linesOfAll items).length + 1 := by
      simp [Item.lines]
      omega
    rw [hlength, Item.lines, Item.entries, List.map_cons, List.map_append, hheader,
      List.cons_append, run_cons_of_step (h.step_block file opening name _), List.append_assoc,
      run_linesOfAll file _ items (h.opened name), List.map_singleton, List.singleton_append,
      run_closing (s := s.enter _) h.inString, leave_enter h.inner]
    rfl
  | .callable opening closing head body, s, path, line, h => by
    have hheader : dropReturn (opening.text ++ head.header) = opening.text ++ head.header :=
      dropReturn_of_getLast? (by simp [Callable.header, List.getLast?_cons])
    have hlength : line + (Item.callable opening closing head body).lines.length =
        line + 1 + body.length + 1 := by
      simp [Item.lines]
      omega
    rw [hlength, Item.lines, Item.entries, List.map_cons, List.map_append, hheader,
      List.cons_append, run_cons_of_step (h.step_callable file opening head _), List.append_assoc,
      run_body h.inner_deeper, List.map_singleton, List.singleton_append,
      run_closing (s := s.deeper) h.inString, leave_deeper h.inner]
    rfl

theorem run_linesOfAll (file : FileId) (rest : List Text) : ∀ (is : List Item) {s : ScanState}
    {path : List PlainName} {line : Nat}, s.Within path line →
      run file line ((linesOfAll is).map dropReturn ++ rest) s =
        ((run file (line + (linesOfAll is).length) rest s).1,
          (entriesOfAll path line is).map (Entry.finding file) ++
            (run file (line + (linesOfAll is).length) rest s).2)
  | [], _, _, _, _ => rfl
  | i :: is, s, path, line, h => by
    have hi := i.run_lines file ((linesOfAll is).map dropReturn ++ rest) h
    have his := run_linesOfAll file rest is (h.later i.lines.length)
    rw [linesOfAll, List.map_append, List.append_assoc, hi, his, entriesOfAll, List.length_append]
    simp [Nat.add_assoc]

end

/-! ## Reading a script -/

theorem Indent.lineFeed_not_mem (i : Indent) : '\n' ∉ i.text :=
  fun hmem => absurd (i.blank _ hmem) (by decide)

theorem BlockName.lineFeed_not_mem_header (b : BlockName) : '\n' ∉ b.header := by
  have hname : '\n' ∉ b.text := fun h => absurd (b.isNameChar_or_of_mem _ h) (by decide)
  have hns : '\n' ∉ namespaceWord := by decide
  have heval : '\n' ∉ evalWord := by decide
  simp [header, hname, hns, heval]

theorem Callable.lineFeed_not_mem_header (c : Callable) : '\n' ∉ c.header := by
  have hkeyword : '\n' ∉ c.kind.keyword := by cases c.kind <;> decide
  have hname : '\n' ∉ c.name.text := fun h => absurd (c.name.plain _ h) (by decide)
  have hparams : '\n' ∉ joined [' '] c.params := fun h => absurd (mem_joined h) (by decide)
  simp [header, list, hkeyword, hname, hparams]

mutual

theorem Item.lineFeed_not_mem_lines : ∀ i : Item, ∀ l ∈ i.lines, '\n' ∉ l
  | .block opening closing name items, l, hl => by
    have hitems := lineFeed_not_mem_linesOfAll items l
    simp only [Item.lines, List.mem_cons, List.mem_append, List.not_mem_nil, or_false] at hl
    rcases hl with rfl | hl | rfl
    · simp [opening.lineFeed_not_mem, name.lineFeed_not_mem_header]
    · exact hitems hl
    · simp [closing.lineFeed_not_mem]
  | .callable opening closing head body, l, hl => by
    simp only [Item.lines, List.mem_cons, List.mem_append, List.mem_map, List.not_mem_nil,
      or_false] at hl
    rcases hl with rfl | ⟨t, -, rfl⟩ | rfl
    · simp [opening.lineFeed_not_mem, head.lineFeed_not_mem_header]
    · exact t.oneLine
    · simp [closing.lineFeed_not_mem]

theorem lineFeed_not_mem_linesOfAll : ∀ is : List Item, ∀ l ∈ linesOfAll is, '\n' ∉ l
  | [], _, hl => absurd hl (by simp [linesOfAll])
  | i :: is, l, hl => by
    rw [linesOfAll, List.mem_append] at hl
    rcases hl with hl | hl
    · exact i.lineFeed_not_mem_lines l hl
    · exact lineFeed_not_mem_linesOfAll is l hl

end

/-- **A rendered script is read line by line.** -/
theorem lines_render (items : List Item) :
    Text.lines (render items) = (linesOfAll items).map dropReturn :=
  lines_flatMap_lineFeed (lineFeed_not_mem_linesOfAll items)

/-- **A script is scanned for what it declares**, and leaves nothing open. -/
theorem run_render (file : FileId) (items : List Item) :
    ScanState.start.run file 0 (Text.lines (render items)) =
      (.start, (entriesOfAll [] 0 items).map (Entry.finding file)) := by
  have hrun := run_linesOfAll file [] items Within.start
  simpa [lines_render, run] using hrun

theorem Entry.definition?_finding (file : FileId) (e : Entry) :
    (e.finding file).definition? = e.leaf?.map (Leaf.definition file) := by
  cases e <;> rfl

theorem Entry.declared?_finding (file : FileId) (e : Entry) :
    (e.finding file).declared? = e.block?.map (joined Name.separator) := by
  cases e <;> rfl

/-- **Namespace attribution.**  Scanning a script finds one definition for each callable, in the
order written, in the namespace of the blocks around it; the namespaces are the paths of the blocks,
each once, in the order first opened; and no brace and no block is left open. -/
theorem scanText_render (file : FileId) (items : List Item) :
    (scanText file (render items)).definitions = (leaves items).map (Leaf.definition file) ∧
      (scanText file (render items)).definitions.map Definition.qualifiedName =
        (leaves items).map Leaf.qualifiedName ∧
      (scanText file (render items)).namespaces =
        ((blocks items).map (joined Name.separator)).eraseDups ∧
      (ScanState.start.run file 0 (Text.lines (render items))).1.depth = 0 ∧
      (ScanState.start.run file 0 (Text.lines (render items))).1.scopes = [] := by
  have hdefinitions : (scanText file (render items)).definitions =
      (leaves items).map (Leaf.definition file) := by
    rw [scanText, scanLines, run_render, Outline.definitions_ofFindings, List.filterMap_map, leaves,
      List.map_filterMap]
    exact List.filterMap_congr fun e _ => e.definition?_finding file
  have hnamespaces : (scanText file (render items)).namespaces =
      ((blocks items).map (joined Name.separator)).eraseDups := by
    rw [scanText, scanLines, run_render, Outline.namespaces_ofFindings, List.filterMap_map, blocks,
      List.map_filterMap]
    exact congrArg List.eraseDups (List.filterMap_congr fun e _ => e.declared?_finding file)
  refine ⟨hdefinitions, ?_, hnamespaces, ?_, ?_⟩
  · rw [hdefinitions, List.map_map]
    exact List.map_congr_left fun l _ => l.qualifiedName_definition file
  · rw [run_render]
    rfl
  · rw [run_render]
    rfl

/-- A procedure in a block of two segments. -/
example :
    let x : PlainName := ⟨['x'], by simp, by simp; decide⟩
    let y : PlainName := ⟨['y'], by simp, by simp; decide⟩
    let script : List Item :=
      [.block ⟨[], by simp⟩ ⟨[], by simp⟩ ⟨true, x, [y]⟩
        [.callable ⟨[' '], by simp⟩ ⟨['\t'], by simp⟩ ⟨.proc, y, [x, y]⟩ []]]
    render script = "namespace eval ::x::y \x7b\n proc y \x7bx y\x7d \x7b\n\t\x7d\n\x7d\n".toList ∧
      (scanText ⟨0⟩ (render script)).definitions.map Definition.qualifiedName =
        ["x::y::y".toList] := by
  decide +kernel

end Script

end TclAtlas
