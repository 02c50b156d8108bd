import TclAtlas.Proofs.Name.Parts
import TclAtlas.Proofs.Scan.Commands
import TclAtlas.Proofs.Scan.Scopes

/-!
# Proofs/Scan/Origins — where the definitions of a scan come from

A line defines something only by a header, and at most once: the callable of the header, in the
innermost block that is open before the line (`ScanState.filterMap_definition?_step`).  So a
definition of a scan goes back to the header on the line it is located at, and to the block that was
open there (`Scanner.Origin`, `Scanner.exists_origin`).

A block is declared where it is opened.  So the names of all open blocks are among the namespaces
declared so far (`Scanner.DeclaresScopes`), which only become more.
-/

namespace TclAtlas

/-! ## What a line defines -/

/-- **The definition that a line introduces** in a block. -/
def LineAt.definition? (l : LineAt) (block : Option Text) : Option Definition :=
  (Header.parse? l.text).bind fun h => Definition.make? h.kind h.name h.params block
    (l.location h.column)

namespace ScanState

variable (s : ScanState) (l : LineAt)

theorem filterMap_definition?_definitionFindings :
    (s.definitionFindings l (splitWords l.text)).filterMap Finding.definition? =
      (l.definition? s.current).toList := by
  rw [definitionFindings, LineAt.definition?, Header.parse?]
  rcases Header.ofWords? (splitWords l.text) with _ | h
  · rfl
  · rw [Option.bind_some]
    rcases hmake : Definition.make? h.kind h.name h.params s.current (l.location h.column) with
      _ | d <;> simp [hmake, Finding.definition?]

/-- **A binding defines nothing**, whatever dictionary it describes. -/
theorem filterMap_definition?_matchSet (words : List Word) :
    (s.matchSet l words).2.filterMap Finding.definition? = [] := by
  rw [matchSet.eq_def]
  split
  · simp only
    split
    · rw [List.filterMap_append, filterMap_literalFindings fun _ _ _ _ => rfl]
      rfl
    · rfl
  · rfl

theorem filterMap_definition?_matchBlock (words : List Word) :
    (s.matchBlock words).2.filterMap Finding.definition? = [] := by
  refine List.filterMap_eq_nil_iff.mpr fun f hf => ?_
  obtain ⟨ns, rfl⟩ := exists_of_mem_matchBlock hf
  rfl

theorem filterMap_definition?_importFindings (words : List Word) :
    (importFindings words).filterMap Finding.definition? = [] := by
  refine List.filterMap_eq_nil_iff.mpr fun f hf => ?_
  obtain ⟨i, rfl⟩ := exists_of_mem_importFindings hf
  rfl

theorem filterMap_definition?_dictSetFindings (words : List Word) :
    (dictSetFindings l words).filterMap Finding.definition? = [] := by
  refine List.filterMap_eq_nil_iff.mpr fun f hf => ?_
  obtain ⟨n, keys, location, rfl⟩ := exists_of_mem_dictSetFindings hf
  rfl

/-- **The words of a line define** what its header introduces in the innermost open block. -/
theorem filterMap_definition?_matchLine :
    (s.matchLine l).2.filterMap Finding.definition? = (l.definition? s.current).toList := by
  have hheader := s.filterMap_definition?_definitionFindings l
  -- a first word that is no keyword makes no header
  have hnone : ∀ first others, splitWords l.text = first :: others →
      DefinitionKind.ofKeyword? first.text = none → l.definition? s.current = none := by
    intro first others hwords hfirst
    rw [LineAt.definition?, Header.parse?, hwords, Header.ofWords?.eq_def]
    split
    · next heq =>
      obtain ⟨rfl, -⟩ := List.cons.inj heq
      simp [hfirst]
    · rfl
  rw [matchLine]
  split
  · next hwords => rw [LineAt.definition?, Header.parse?, hwords]; rfl
  next first others hwords =>
  split
  · exact hheader
  next hfirst =>
  rw [hnone first others hwords (by simpa using hfirst)]
  split
  · exact s.filterMap_definition?_matchSet l _
  split
  · split
    · rfl
    split
    · exact s.filterMap_definition?_matchBlock _
    split
    · exact filterMap_definition?_importFindings _
    · rfl
  split
  · exact filterMap_definition?_dictSetFindings l _
  · rfl

/-- **A line defines** what its header introduces in the innermost open block, if it is read. -/
theorem filterMap_definition?_step :
    (s.step l).2.filterMap Finding.definition? =
      if s.skips l then [] else (l.definition? s.current).toList := by
  rw [step_snd]
  split
  · rfl
  · exact s.filterMap_definition?_matchLine l

/-- **The blocks that are open after a line** were open before it, or the line declares them. -/
theorem mem_scopes_step {scope : Scope} (h : scope ∈ (s.step l).1.scopes) :
    scope ∈ s.scopes ∨ .declared scope.name ∈ (s.step l).2 := by
  have hclose : (s.step l).1.scopes ⊆ (if s.skips l then s else (s.matchLine l).1).scopes := by
    rw [step_fst]
    refine List.Subset.trans (List.dropWhile_sublist _).subset ?_
    rw [scopes_foldl_count]
    exact List.Subset.refl _
  have hscope := hclose h
  rw [step_snd]
  split at hscope
  · exact Or.inl hscope
  · next hskips =>
    rw [if_neg hskips]
    rcases s.matchLine_cases l with hl | ⟨n, -, hl⟩ | ⟨ns, -, hl⟩
    · exact Or.inl (hl ▸ hscope)
    · rw [hl] at hscope
      exact Or.inl hscope
    · rw [hl] at hscope ⊢
      rcases List.mem_cons.mp hscope with rfl | hscope
      · exact Or.inr (List.mem_singleton.mpr rfl)
      · exact Or.inl hscope

end ScanState

/-! ## The scan up to a line -/

namespace Outline

theorem subset_namespaces_addAll (fs : List Finding) (o : Outline) :
    o.namespaces ⊆ (o.addAll fs).namespaces := by
  rw [namespaces_addAll, Distinct.insertAll_eq_append]
  exact List.subset_append_left _ _

theorem mem_namespaces_addAll {fs : List Finding} {ns : Text} (h : .declared ns ∈ fs)
    (o : Outline) : ns ∈ (o.addAll fs).namespaces := by
  rw [namespaces_addAll, Distinct.mem_insertAll]
  exact Or.inl (List.mem_filterMap.mpr ⟨_, h, rfl⟩)

end Outline

namespace Scanner

/-- **A scan under way declares its open blocks.** -/
def DeclaresScopes (s : Scanner) : Prop :=
  ∀ scope ∈ s.state.scopes, scope.name ∈ s.outline.namespaces

theorem DeclaresScopes.step {s : Scanner} (h : s.DeclaresScopes) (l : LineAt) :
    (s.step l).DeclaresScopes := by
  intro scope hscope
  rcases s.state.mem_scopes_step l hscope with hold | hnew
  · exact Outline.subset_namespaces_addAll _ _ (h scope hold)
  · exact Outline.mem_namespaces_addAll hnew _

/-- **The scan of a file before the line of a number.** -/
def upTo (file : FileId) (text : Text) (number : Nat) : Scanner :=
  (List.range number).foldl (scanLine file (Text.lines text)) start

variable {file : FileId} {text : Text}

theorem upTo_succ (file : FileId) (text : Text) (number : Nat) :
    upTo file text (number + 1) =
      scanLine file (Text.lines text) (upTo file text number) number := by
  rw [upTo, List.range_succ, List.foldl_append]
  rfl

/-- **A further line** is read, unless there is none. -/
theorem upTo_succ_cases (file : FileId) (text : Text) (number : Nat) :
    upTo file text (number + 1) = upTo file text number ∨
    ∃ l : LineAt, l.file = file ∧ l.number = number ∧ (Text.lines text)[number]? = some l.text ∧
      upTo file text (number + 1) = (upTo file text number).step l := by
  rw [upTo_succ, scanLine]
  split
  · exact Or.inl rfl
  · next line below hdrop =>
    refine Or.inr ⟨⟨file, number, line, below⟩, rfl, rfl, ?_, rfl⟩
    rw [← List.head?_drop, hdrop]
    rfl

theorem outline_upTo_length (file : FileId) (text : Text) :
    (upTo file text (Text.lines text).length).outline = scanText file text :=
  foldl_scanLine file (Text.lines text)

theorem declaresScopes_upTo (file : FileId) (text : Text) :
    ∀ number, (upTo file text number).DeclaresScopes
  | 0 => fun _ h => absurd h (List.not_mem_nil)
  | number + 1 => by
    have ih := declaresScopes_upTo file text number
    rcases upTo_succ_cases file text number with h | ⟨l, -, -, -, h⟩ <;> rw [h]
    · exact ih
    · exact ih.step l

theorem namespaces_upTo_mono (file : FileId) (text : Text) {m n : Nat} (h : m ≤ n) :
    (upTo file text m).outline.namespaces ⊆ (upTo file text n).outline.namespaces := by
  induction n, h using Nat.le_induction with
  | base => exact List.Subset.refl _
  | succ n _ ih =>
    refine List.Subset.trans ih ?_
    rcases upTo_succ_cases file text n with h | ⟨l, -, -, -, h⟩ <;> rw [h]
    · exact List.Subset.refl _
    · exact Outline.subset_namespaces_addAll _ _

/-! ## Definitions -/

/-- **The block that is open** before the line of a number. -/
def blockAt (file : FileId) (text : Text) (number : Nat) : Option Text :=
  (upTo file text number).state.current

/-- The header on the line of a number. -/
def headerAt? (text : Text) (number : Nat) : Option Header :=
  ((Text.lines text)[number]?).bind Header.parse?

/-- **The header and the block that a definition comes from**: the definition is made of the header
on its line, in the block that is open there. -/
structure Origin (file : FileId) (text : Text) (d : Definition) (h : Header) : Prop where
  header : headerAt? text d.location.line = some h
  make : Definition.make? h.kind h.name h.params (blockAt file text d.location.line)
    ⟨file, d.location.line, h.column⟩ = some d

/-- **Every definition found so far** has an origin on one of the lines read. -/
theorem exists_origin_of_upTo : ∀ {number : Nat} {d : Definition},
    d ∈ (upTo file text number).outline.definitions →
      d.location.line < number ∧ ∃ h, Origin file text d h
  | 0, _, hd => absurd hd (List.not_mem_nil)
  | number + 1, d, hd => by
    have hold : d ∈ (upTo file text number).outline.definitions →
        d.location.line < number + 1 ∧ ∃ h, Origin file text d h := fun hd =>
      (exists_origin_of_upTo hd).imp_left Nat.lt_succ_of_lt
    rcases upTo_succ_cases file text number with h | ⟨l, hfile, hnumber, hline, h⟩ <;> rw [h] at hd
    · exact hold hd
    · rw [Scanner.step, Outline.definitions_addAll, List.mem_append,
        ScanState.filterMap_definition?_step] at hd
      rcases hd with hd | hd
      · exact hold hd
      · split at hd
        · exact absurd hd (List.not_mem_nil)
        obtain ⟨header, hheader, hmake⟩ := Option.bind_eq_some_iff.mp (Option.mem_toList.mp hd)
        have hlocation : d.location = ⟨file, number, header.column⟩ := by
          rw [Definition.location_of_make? hmake, LineAt.location, hfile, hnumber]
        refine ⟨by simp [hlocation], header, ?_, ?_⟩
        · rw [headerAt?, hlocation, hline, Option.bind_some, hheader]
        · rw [LineAt.location, hfile, hnumber] at hmake
          rw [hlocation]
          exact hmake

/-- **Every definition of a scan has an origin.** -/
theorem exists_origin {d : Definition} (hd : d ∈ (scanText file text).definitions) :
    ∃ h, Origin file text d h := by
  rw [← outline_upTo_length] at hd
  exact (exists_origin_of_upTo hd).2

/-- **The block of a definition is declared** by the scan. -/
theorem mem_namespaces_of_blockAt {d : Definition} (hd : d ∈ (scanText file text).definitions)
    {ns : Text} (hns : blockAt file text d.location.line = some ns) :
    ns ∈ (scanText file text).namespaces := by
  rw [← outline_upTo_length] at hd ⊢
  have hline : d.location.line ≤ (Text.lines text).length := (exists_origin_of_upTo hd).1.le
  obtain ⟨scope, hscope, rfl⟩ := Option.map_eq_some_iff.mp hns
  exact namespaces_upTo_mono file text hline
    (declaresScopes_upTo file text _ scope (List.mem_of_mem_head? hscope))

end Scanner

end TclAtlas
