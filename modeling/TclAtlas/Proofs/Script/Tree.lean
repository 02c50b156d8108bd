import TclAtlas.Proofs.Word.Spacing
import TclAtlas.Scan

/-!
# Proofs/Script/Tree — scripts as trees of blocks and callables

A **script** is a tree: namespace blocks, nested as deep as one likes, with procedures and methods
in them.  It is written down one header, body line or closing brace to a line, each indented at
will (`render`).  Reading it again gives back its lines, up to carriage returns at their ends
(`lines_flatMap_lineFeed`).

What it declares is told by its structure alone: in the order in which they are written, each block
with its path of names from the root, and each callable with the path of the block around it
(`Item.entries`).
-/

namespace TclAtlas.Script

/-! ## Names and lines -/

/-- **A plain name**: letters, digits and underscores, at least one. -/
structure PlainName where
  text : Text
  ne_nil : text ≠ []
  plain : ∀ c ∈ text, Text.isNameChar c = true

/-- An indentation of spaces and tabs. -/
structure Indent where
  text : Text
  blank : ∀ c ∈ text, c = ' ' ∨ c = '\t'

/-- Names with a separator between each two of them. -/
def joined (separator : Text) : List PlainName → Text
  | [] => []
  | [n] => n.text
  | n :: m :: ns => n.text ++ separator ++ joined separator (m :: ns)

/-- The words whose lines mean something to a scan. -/
def commandWords : List Text :=
  [DefinitionKind.proc.keyword, DefinitionKind.method.keyword, ScanState.setWord,
    ScanState.namespaceWord, DictLiteral.dictWord]

/-- **A text without braces, quotes and backslashes.** -/
def IsPlain (t : Text) : Prop := ∀ c ∈ t, c ≠ '{' ∧ c ≠ '}' ∧ c ≠ '"' ∧ c ≠ '\\'

/-- Whether a line starts with the given word. -/
def StartsWith (word line : Text) : Prop :=
  ∃ gap after, line = gap ++ (word ++ after) ∧ IsGap gap ∧ EndsWord after

/-- **A line of a body**: without braces, quotes and backslashes, and starting with no word that
means something to a scan. -/
structure BodyLine where
  text : Text
  oneLine : '\n' ∉ text
  plain : IsPlain text
  noCommand : ∀ word ∈ commandWords, ¬StartsWith word text

/-! ## Trees -/

/-- **The name of a block** as written: segments, anchored at the root or not. -/
structure BlockName where
  anchored : Bool
  first : PlainName
  more : List PlainName

/-- **A procedure or method** as its header names it. -/
structure Callable where
  kind : DefinitionKind
  name : PlainName
  params : List PlainName

/-- **A part of a script**: a block with the parts in it, or a callable with the lines of its body;
each with the indentations of its first and of its last line. -/
inductive Item
  | block (opening closing : Indent) (name : BlockName) (items : List Item)
  | callable (opening closing : Indent) (head : Callable) (body : List BodyLine)

/-! ## Rendering -/

/-- The name of a block, its segments joined by double colons. -/
def BlockName.text (b : BlockName) : Text :=
  (if b.anchored then Name.separator else []) ++ joined Name.separator (b.first :: b.more)

/-- The text of `namespace eval NAME {`. -/
def BlockName.header (b : BlockName) : Text :=
  ScanState.namespaceWord ++ ' ' :: (ScanState.evalWord ++ ' ' :: (b.text ++ ' ' :: ['{']))

/-- The parameter list in its braces. -/
def Callable.list (c : Callable) : Text := '{' :: (joined [' '] c.params ++ ['}'])

/-- The text of `proc NAME {p1 p2 …} {`. -/
def Callable.header (c : Callable) : Text :=
  c.kind.keyword ++ ' ' :: (c.name.text ++ ' ' :: (c.list ++ ' ' :: ['{']))

mutual

/-- **The lines of a part of a script.** -/
def Item.lines : Item → List Text
  | .block opening closing name items =>
    (opening.text ++ name.header) :: (linesOfAll items ++ [closing.text ++ ['}']])
  | .callable opening closing head body =>
    (opening.text ++ head.header) :: (body.map BodyLine.text ++ [closing.text ++ ['}']])

/-- The lines of several parts, one after the other. -/
def linesOfAll : List Item → List Text
  | [] => []
  | i :: is => i.lines ++ linesOfAll is

end

/-- **A script as text**, every line ended by a line feed. -/
def render (items : List Item) : Text := (linesOfAll items).flatMap (· ++ ['\n'])

/-! ## What a script declares -/

/-- The path of a block in the block of the given path: an anchored name starts from the root. -/
def BlockName.path (b : BlockName) (parent : List PlainName) : List PlainName :=
  if b.anchored then b.first :: b.more else parent ++ b.first :: b.more

/-- **A callable in its place**: the path of the block around it, the number of its header line and
the indentation of that line. -/
structure Leaf where
  path : List PlainName
  callable : Callable
  line : Nat
  indent : Indent

/-- **What a script declares**: a block, by its path, or a callable. -/
inductive Entry
  | block (path : List PlainName)
  | leaf (l : Leaf)

mutual

/-- **What a part declares** in the block of the given path, its first line having the given
number. -/
def Item.entries (path : List PlainName) (line : Nat) : Item → List Entry
  | .block _ _ name items =>
    .block (name.path path) :: entriesOfAll (name.path path) (line + 1) items
  | .callable opening _ head _ => [.leaf ⟨path, head, line, opening⟩]

/-- What several parts declare, one after the other. -/
def entriesOfAll (path : List PlainName) (line : Nat) : List Item → List Entry
  | [] => []
  | i :: is => i.entries path line ++ entriesOfAll path (line + i.lines.length) is

end

namespace Entry

/-- The callable that an entry is. -/
def leaf? : Entry → Option Leaf
  | block _ => none
  | leaf l => some l

/-- The path of the block that an entry is. -/
def block? : Entry → Option (List PlainName)
  | block path => some path
  | leaf _ => none

end Entry

/-- **The callables of a script**, in the order written. -/
def leaves (items : List Item) : List Leaf := (entriesOfAll [] 0 items).filterMap Entry.leaf?

/-- **The paths of the blocks of a script**, in the order they are opened. -/
def blocks (items : List Item) : List (List PlainName) :=
  (entriesOfAll [] 0 items).filterMap Entry.block?

/-- The namespace of a path; none for the root. -/
def owner : List PlainName → Option Text
  | [] => none
  | n :: ns => some (joined Name.separator (n :: ns))

namespace Leaf

/-- **The definition that a callable makes.**  It stands at its name, one space after the
keyword. -/
def definition (file : FileId) (l : Leaf) : Definition where
  kind := l.callable.kind
  name := l.callable.name.text
  params := l.callable.params.map fun p => .required p.text
  owner := owner l.path
  location := ⟨file, l.line,
    Text.byteLength l.indent.text + Text.byteLength l.callable.kind.keyword + 1⟩
  anchored := false

/-- The path and the name of a callable, joined by double colons. -/
def qualifiedName (l : Leaf) : Text := joined Name.separator (l.path ++ [l.callable.name])

end Leaf

/-! ## Joined names -/

theorem mem_joined {separator : Text} {c : Char} : ∀ {ns : List PlainName},
    c ∈ joined separator ns → Text.isNameChar c = true ∨ c ∈ separator
  | [], h => absurd h (by simp [joined])
  | [n], h => Or.inl (n.plain c h)
  | n :: m :: ns, h => by
    rw [joined, List.append_assoc, List.mem_append, List.mem_append] at h
    rcases h with h | h | h
    · exact Or.inl (n.plain c h)
    · exact Or.inr h
    · exact mem_joined h

/-- A joined name begins with a character of its first segment. -/
theorem exists_joined_eq_cons (separator : Text) (n : PlainName) : ∀ ns : List PlainName,
    ∃ c cs, joined separator (n :: ns) = c :: cs ∧ Text.isNameChar c = true
  | [] => by
    obtain ⟨c, cs, hc⟩ := List.exists_cons_of_ne_nil n.ne_nil
    exact ⟨c, cs, hc, n.plain c (hc ▸ List.mem_cons_self)⟩
  | m :: ns => by
    obtain ⟨c, cs, hc⟩ := List.exists_cons_of_ne_nil n.ne_nil
    exact ⟨c, cs ++ separator ++ joined separator (m :: ns), by simp [joined, hc],
      n.plain c (hc ▸ List.mem_cons_self)⟩

/-- **The name of a member** of a namespace is the joined path. -/
theorem qualify_owner (m : PlainName) (ms : List PlainName) : ∀ path : List PlainName,
    Name.qualify (owner path) (joined Name.separator (m :: ms)) =
      joined Name.separator (path ++ m :: ms)
  | [] => rfl
  | [n] => rfl
  | n :: n' :: ns => by
    have ih := qualify_owner m ms (n' :: ns)
    simp only [owner, Name.qualify, Name.join, joined, List.cons_append] at ih ⊢
    rw [← ih]
    simp

/-- **The qualified name of a definition** is the joined path with the name. -/
theorem Leaf.qualifiedName_definition (file : FileId) (l : Leaf) :
    (l.definition file).qualifiedName = l.qualifiedName := qualify_owner l.callable.name [] l.path

/-! ## Reading a rendered script -/

/-- A line without the carriage return at its end, if there is one. -/
def dropReturn (l : Text) : Text := if l.getLast? = some '\r' then l.dropLast else l

theorem dropReturn_cons_cons (c d : Char) (l : Text) :
    dropReturn (c :: d :: l) = c :: dropReturn (d :: l) := by
  rw [dropReturn, dropReturn, List.getLast?_cons_cons]
  split <;> simp

/-- A line is either left as it is or loses a carriage return. -/
theorem dropReturn_cases (l : Text) : dropReturn l = l ∨ l = dropReturn l ++ ['\r'] := by
  rw [dropReturn]
  split
  · next h =>
    obtain ⟨cs, rfl⟩ := List.getLast?_eq_some_iff.mp h
    exact Or.inr (by simp)
  · exact Or.inl rfl

theorem dropReturn_of_getLast? {l : Text} (h : l.getLast? ≠ some '\r') : dropReturn l = l :=
  if_neg h

/-- **A line feed ends a line**, with a carriage return before it. -/
theorem lines_append_lineFeed (t : Text) : ∀ {l : Text}, '\n' ∉ l →
    Text.lines (l ++ '\n' :: t) = dropReturn l :: Text.lines t
  | [], _ => by simp [Text.lines, dropReturn]
  | [c], h => by
    by_cases hc : c = '\r'
    · subst hc
      simp [Text.lines, dropReturn]
    · have hne : c ≠ '\n' := fun hc => h (by simp [hc])
      simp [Text.lines, dropReturn, hc]
  | c :: d :: l, h => by
    have hc : c ≠ '\n' := fun hc => h (by simp [hc])
    have hd : d ≠ '\n' := fun hd => h (by simp [hd])
    have ih := lines_append_lineFeed t (l := d :: l) fun hmem => h (List.mem_cons_of_mem c hmem)
    rw [dropReturn_cons_cons, List.cons_append]
    rw [List.cons_append] at ih ⊢
    rw [Text.lines.eq_def]
    simp [hd, ih]

theorem lines_flatMap_lineFeed : ∀ {ls : List Text}, (∀ l ∈ ls, '\n' ∉ l) →
    Text.lines (ls.flatMap (· ++ ['\n'])) = ls.map dropReturn
  | [], _ => rfl
  | l :: ls, h => by
    have ih := lines_flatMap_lineFeed fun m hm => h m (List.mem_cons_of_mem l hm)
    rw [List.flatMap_cons, List.append_assoc, List.singleton_append,
      lines_append_lineFeed _ (h l List.mem_cons_self), ih, List.map_cons]

end TclAtlas.Script
