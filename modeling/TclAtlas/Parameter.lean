import TclAtlas.Text.Blank

/-!
# Parameter — the parameters of a definition

A parameter list is cut at its blanks.  A piece that opens with a brace begins a **group**, which
takes in pieces, joined by single spaces, until it ends with a closing brace; a group that never
ends keeps what it has.  A group specifies a name and, after the first blank, a default; any other
piece is the name of a parameter without a default.
-/

namespace TclAtlas

/-- **A formal parameter**: its name, its default if it has one, and its specifier as written. -/
structure Parameter where
  name : Text
  default : Option Text
  raw : Text
  deriving DecidableEq, Repr

namespace Parameter

/-- The parameter without a default that a plain name specifies. -/
def required (name : Text) : Parameter := ⟨name, none, name⟩

/-- The name that makes a parameter take all remaining arguments. -/
def restName : Text := ['a', 'r', 'g', 's']

/-- **Whether an argument may be left out**: the parameter has a default or takes the rest. -/
def isOptional (p : Parameter) : Bool := p.default.isSome || p.name == restName

/-- How a parameter is shown in a signature: an optional one between question marks. -/
def label (p : Parameter) : Text :=
  if p.isOptional then '?' :: p.name ++ ['?'] else p.name

/-! ## Reading a parameter list -/

/-- Whether a specifier is, or begins, a group. -/
def isGroup (s : Text) : Bool := s.head? == some '{'

/-- Whether a group is complete. -/
def isClosed (s : Text) : Bool := s.getLast? == some '}'

/-- The specifiers made of the given pieces, after the incomplete group read so far if there is
one. -/
def assemble : Option Text → List Text → List Text
  | group, [] => group.toList
  | none, p :: ps =>
    if isGroup p && !isClosed p then assemble (some p) ps else p :: assemble none ps
  | some g, p :: ps =>
    let g' := g ++ ' ' :: p
    if isClosed g' then g' :: assemble none ps else assemble (some g') ps

/-- The specifiers of a parameter list. -/
def specifiers (list : Text) : List Text := assemble none (Text.pieces list)

/-- A text without its last character if that is a closing brace. -/
def dropClose (t : Text) : Text := if isClosed t then t.dropLast else t

/-- The parameter of a group with the given content, unless that is blank. -/
def ofGroup? (raw content : Text) : Option Parameter :=
  match Text.trim content with
  | [] => none
  | t =>
    let (name, after) := Text.splitAtBlank t
    let default := match after.map Text.trim with
      | none | some [] => none
      | some d => some d
    some ⟨name, default, raw⟩

/-- The parameter that a specifier stands for; an empty group stands for none. -/
def ofSpecifier? : Text → Option Parameter
  | '{' :: t => ofGroup? ('{' :: t) (dropClose t)
  | s => some (required s)

/-- **The parameters of a parameter list.** -/
def parseList (list : Text) : List Parameter := (specifiers list).filterMap ofSpecifier?

end Parameter

end TclAtlas
