import TclAtlas.Scan

/-!
# Proofs/Scan/Locations — a scan carried elsewhere finds the same, elsewhere

What a scan finds depends on the text of the lines.  The file and the numbers of the lines only come
back in the locations: the same lines scanned in another file, or further down, make the same
findings at other places (`ScanState.run_relocate`).

So the outline of a text is that of the text in any other file, with the files of its locations
renumbered (`scanText_renumber`).
-/

namespace TclAtlas

/-! ## Symbols at other places -/

/-- The definition at another place. -/
def Definition.relocate (g : Location → Location) (d : Definition) : Definition :=
  { d with location := g d.location }

/-- The binding at another place. -/
def Binding.relocate (g : Location → Location) (b : Binding) : Binding :=
  { b with location := g b.location }

/-- The dictionary shape at another place. -/
def DictShape.relocate (g : Location → Location) (d : DictShape) : DictShape :=
  { d with location := g d.location }

/-- **A finding at another place.** -/
def Finding.relocate (g : Location → Location) : Finding → Finding
  | .definition d => .definition (d.relocate g)
  | .binding b => .binding (b.relocate g)
  | .dictKeys name keys parent location => .dictKeys name keys parent (g location)
  | .declared ns => .declared ns
  | .imported i => .imported i

/-- **An outline with its symbols at other places.** -/
def Outline.relocate (g : Location → Location) (o : Outline) : Outline where
  definitions := o.definitions.map (Definition.relocate g)
  bindings := o.bindings.map (Binding.relocate g)
  dicts := o.dicts.map (DictShape.relocate g)
  namespaces := o.namespaces
  imports := o.imports

theorem Definition.make?_relocate (g : Location → Location) (kind : DefinitionKind) (written : Text)
    (params : List Parameter) (enclosing : Option Text) (location : Location) :
    make? kind written params enclosing (g location) =
      (make? kind written params enclosing location).map (relocate g) := by
  rw [make?, make?]
  split
  split <;> rfl

/-! ## Findings add up to the same outline -/

namespace Outline

theorem add_relocate (g : Location → Location) (o : Outline) (f : Finding) :
    (o.relocate g).add (f.relocate g) = (o.add f).relocate g := by
  rcases f with d | b | ⟨name, keys, parent, location⟩ | ns | i
  · simp [add, relocate, Finding.relocate]
  · simp [add, relocate, Finding.relocate]
  · have hshape : ((o.relocate g).dicts.get? name).getD ⟨name, [], none, g location⟩ =
        ((o.dicts.get? name).getD ⟨name, [], none, location⟩).relocate g := by
      rw [relocate, OrderedMap.get?_map]
      rcases o.dicts.get? name with _ | d <;> rfl
    have hkeys : ∀ d : DictShape,
        addKeys keys parent (d.relocate g) = (addKeys keys parent d).relocate g := fun _ => rfl
    simp only [add, Finding.relocate, hshape, hkeys]
    rw [relocate, OrderedMap.insert_map]
    rfl
  · rfl
  · rfl

theorem addAll_relocate (g : Location → Location) : ∀ (fs : List Finding) (o : Outline),
    (o.relocate g).addAll (fs.map (Finding.relocate g)) = (o.addAll fs).relocate g
  | [], _ => rfl
  | f :: fs, o => by
    have ih := addAll_relocate g fs (o.add f)
    rw [← add_relocate] at ih
    exact ih

/-- **Findings at other places add up to the outline at other places.** -/
theorem ofFindings_relocate (g : Location → Location) (fs : List Finding) :
    ofFindings (fs.map (Finding.relocate g)) = (ofFindings fs).relocate g :=
  addAll_relocate g fs .empty

end Outline

/-! ## Dictionary literals -/

namespace Finding

variable (g : Location → Location) (location : Location)

theorem ofKeys_relocate (name : Text) (parent : Option Text) (entries : List DictEntry) :
    ofKeys (g location) name parent entries =
      (ofKeys location name parent entries).map (relocate g) := by
  rw [ofKeys, ofKeys]
  split <;> rfl

mutual

theorem ofValue_relocate (name : Text) : ∀ e : DictEntry,
    ofValue (g location) name e = (ofValue location name e).map (relocate g)
  | .plain _ _ => rfl
  | .nested k _ inner => by
    rw [ofValue, ofValue, List.map_append, ← ofKeys_relocate, ← ofValues_relocate k inner]

theorem ofValues_relocate (name : Text) : ∀ es : List DictEntry,
    ofValues (g location) name es = (ofValues location name es).map (relocate g)
  | [] => rfl
  | e :: es => by
    rw [ofValues, ofValues, List.map_append, ← ofValue_relocate name e,
      ← ofValues_relocate name es]

end

theorem ofDict_relocate (name : Text) (entries : List DictEntry) :
    ofDict (g location) name entries = (ofDict location name entries).map (relocate g) := by
  rw [ofDict, ofDict, List.map_append, ← ofKeys_relocate, ← ofValues_relocate]

end Finding

/-! ## Lines elsewhere -/

namespace ScanState

/-- The state in which the lines up to another one are joined. -/
def rejoin (f : Nat → Nat) (s : ScanState) : ScanState := { s with joinedUntil := f s.joinedUntil }

/-- The state of a scan that began the given number of lines further down. -/
def later (k : Nat) (s : ScanState) : ScanState := { s with joinedUntil := s.joinedUntil + k }

@[simp] theorem rejoin_current (f : Nat → Nat) (s : ScanState) :
    (s.rejoin f).current = s.current := rfl

/-- **A change of the lines that are joined** which goes with moving all lines down by `k`: the same
lines are passed over, and as many more are joined. -/
structure Shifts (f : Nat → Nat) (k : Nat) : Prop where
  lt_iff : ∀ line n, line + k < f n ↔ line < n
  max_succ : ∀ line n, f (max n (line + 1)) = max (f n) (line + k + 1)

theorem shifts_add (k : Nat) : Shifts (· + k) k where
  lt_iff _ _ := Nat.add_lt_add_iff_right
  max_succ line n := by omega

theorem literalFindings_relocate (g : Location → Location) (location : Location)
    (name value : Text) : literalFindings (g location) name value =
      (literalFindings location name value).map (Finding.relocate g) := by
  rw [literalFindings, literalFindings]
  split
  · rfl
  · exact Finding.ofDict_relocate g location name _

/-- Braces and quotes count the same. -/
theorem foldl_count_rejoin (f : Nat → Nat) (comment : Bool) : ∀ (ls : List Lexeme) (s : ScanState),
    ls.foldl (count comment) (s.rejoin f) = (ls.foldl (count comment) s).rejoin f
  | [], _ => rfl
  | l :: ls, s => by
    have hcount : (s.rejoin f).count comment l = (s.count comment l).rejoin f := by
      rcases l with ⟨kind, text⟩
      rcases s with ⟨depth, _ | _, joinedUntil, scopes⟩ <;> rcases kind <;> rcases comment <;> rfl
    rw [List.foldl_cons, hcount, foldl_count_rejoin f comment ls, List.foldl_cons]

section

variable {g : Location → Location} {file file' : FileId} {f : Nat → Nat} {k : Nat}
  (hf : Shifts f k)
  (hg : ∀ line column, g ⟨file, line, column⟩ = ⟨file', line + k, column⟩)
  (s : ScanState) (number : Nat) (text : Text) (below : List Text)

include hg

theorem definitionFindings_relocate (words : List Word) :
    (s.rejoin f).definitionFindings ⟨file', number + k, text, below⟩ words =
      (s.definitionFindings ⟨file, number, text, below⟩ words).map (Finding.relocate g) := by
  rw [definitionFindings, definitionFindings]
  rcases Header.ofWords? words with _ | h
  · rfl
  · simp only [LineAt.location, ← hg, rejoin_current, Definition.make?_relocate]
    rcases Definition.make? h.kind h.name h.params s.current _ with _ | d <;> rfl

include hf in
theorem matchSet_relocate (words : List Word) :
    (s.rejoin f).matchSet ⟨file', number + k, text, below⟩ words =
      ((s.matchSet ⟨file, number, text, below⟩ words).1.rejoin f,
        (s.matchSet ⟨file, number, text, below⟩ words).2.map (Finding.relocate g)) := by
  rcases words with _ | ⟨first, _ | ⟨name, _ | ⟨value, more⟩⟩⟩
  · rfl
  · rfl
  · rfl
  · have hmax : ∀ n m, f (max n (number + 1 + m)) = max (f n) (number + k + 1 + m) := by
      intro n m
      rw [Nat.add_right_comm number 1 m, hf.max_succ, Nat.add_right_comm number m k,
        Nat.add_right_comm (number + k) m 1]
    simp only [matchSet, LineAt.location, ← hg, literalFindings_relocate]
    split
    · simp [rejoin, Finding.relocate, Binding.relocate, hmax]
    · rfl

theorem dictSetFindings_relocate (words : List Word) :
    dictSetFindings ⟨file', number + k, text, below⟩ words =
      (dictSetFindings ⟨file, number, text, below⟩ words).map (Finding.relocate g) := by
  rcases words with _ | ⟨first, _ | ⟨sub, _ | ⟨name, _ | ⟨key, _ | ⟨value, more⟩⟩⟩⟩⟩
  · rfl
  · rfl
  · rfl
  · rfl
  · rfl
  · simp only [dictSetFindings, LineAt.location, ← hg]
    split
    · rcases Text.identifier? key.text with _ | k <;> rfl
    · rfl

omit hg in
theorem matchBlock_relocate (words : List Word) :
    (s.rejoin f).matchBlock words =
      ((s.matchBlock words).1.rejoin f, (s.matchBlock words).2.map (Finding.relocate g)) := by
  rcases words with _ | ⟨first, _ | ⟨sub, _ | ⟨name, _ | ⟨body, more⟩⟩⟩⟩
  · rfl
  · rfl
  · rfl
  · rfl
  · have hname : (s.rejoin f).blockName (Text.unwrap name.text) =
        s.blockName (Text.unwrap name.text) := rfl
    simp only [matchBlock, hname]
    split <;> rfl

omit hg in
theorem importFindings_relocate (words : List Word) :
    importFindings words = (importFindings words).map (Finding.relocate g) := by
  simp only [importFindings, List.map_filterMap, Option.map_map]
  rfl

include hf in
theorem matchLine_relocate :
    (s.rejoin f).matchLine ⟨file', number + k, text, below⟩ =
      ((s.matchLine ⟨file, number, text, below⟩).1.rejoin f,
        (s.matchLine ⟨file, number, text, below⟩).2.map (Finding.relocate g)) := by
  simp only [matchLine]
  rcases splitWords text with _ | ⟨first, others⟩
  · rfl
  · simp only
    split
    · exact Prod.ext rfl (definitionFindings_relocate hg s number text below _)
    split
    · exact matchSet_relocate hf hg s number text below _
    split
    · rcases others with _ | ⟨sub, others⟩
      · rfl
      · simp only
        split
        · exact matchBlock_relocate s _
        split
        · exact Prod.ext rfl (importFindings_relocate _)
        · rfl
    split
    · exact Prod.ext rfl (dictSetFindings_relocate hg number text below _)
    · rfl

include hf in
/-- **One line elsewhere** makes the same findings elsewhere. -/
theorem step_relocate :
    (s.rejoin f).step ⟨file', number + k, text, below⟩ =
      ((s.step ⟨file, number, text, below⟩).1.rejoin f,
        (s.step ⟨file, number, text, below⟩).2.map (Finding.relocate g)) := by
  have hskips : (s.rejoin f).skips ⟨file', number + k, text, below⟩ =
      s.skips ⟨file, number, text, below⟩ := by
    simp [skips, isComment, rejoin, hf.lt_iff]
  have hclose : ∀ s : ScanState, (s.rejoin f).closeScopes = s.closeScopes.rejoin f := fun _ => rfl
  have hcomment : (s.rejoin f).isComment text = s.isComment text := rfl
  rw [step, step, hskips, matchLine_relocate hf hg]
  by_cases h : s.skips ⟨file, number, text, below⟩ = true
  · simp [h, hcomment, foldl_count_rejoin, hclose]
  · simp [h, hcomment, foldl_count_rejoin, hclose]

include hf in
omit text below number in
/-- **Lines elsewhere** make the same findings elsewhere. -/
theorem run_rejoin : ∀ (lines : List Text) (number : Nat) (s : ScanState),
    run file' (number + k) lines (s.rejoin f) =
      ((run file number lines s).1.rejoin f, (run file number lines s).2.map (Finding.relocate g))
  | [], _, _ => rfl
  | text :: below, number, s => by
    have hrest := run_rejoin below (number + 1) (s.step ⟨file, number, text, below⟩).1
    rw [Nat.add_right_comm] at hrest
    rw [run, step_relocate hf hg]
    simp only [hrest, run, List.map_append]

omit text below number s in
/-- **Lines further down** make the same findings further down. -/
theorem run_relocate (lines : List Text) (number : Nat) (s : ScanState) :
    run file' (number + k) lines (s.later k) =
      ((run file number lines s).1.later k, (run file number lines s).2.map (Finding.relocate g)) :=
  run_rejoin (shifts_add k) hg lines number s

end

end ScanState

/-! ## Files by other numbers -/

/-- The location with the file renumbered. -/
def Location.renumber (ρ : FileId → FileId) (l : Location) : Location := { l with file := ρ l.file }

/-- **An outline with the files of its locations renumbered.** -/
def Outline.renumber (ρ : FileId → FileId) (o : Outline) : Outline :=
  o.relocate (Location.renumber ρ)

/-- **A text has the same outline in every file**, up to the number of the file. -/
theorem scanText_renumber (ρ : FileId → FileId) (file : FileId) (text : Text) :
    scanText (ρ file) text = (scanText file text).renumber ρ := by
  have hg : ∀ line column, (Location.renumber ρ) ⟨file, line, column⟩ =
      ⟨ρ file, line + 0, column⟩ := fun _ _ => rfl
  have hrun := ScanState.run_relocate hg (Text.lines text) 0 .start
  rw [scanText, scanLines, Outline.renumber, scanText, scanLines, ← Outline.ofFindings_relocate]
  exact congrArg (fun r => Outline.ofFindings r.2) hrun

end TclAtlas
