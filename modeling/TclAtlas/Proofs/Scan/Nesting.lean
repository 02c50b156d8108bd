import TclAtlas.Proofs.Outline.Parents
import TclAtlas.Proofs.Scan.Commands
import TclAtlas.Proofs.Scan.Scopes
import TclAtlas.Proofs.Scan.WellFormed
import TclAtlas.Proofs.Text.Trimming

/-!
# Proofs/Scan/Nesting — which dictionary is the parent of which

A dictionary has a parent by being nested: the literal bound to a variable, or nested in another
literal, holds a literal under its name.  The nestings of a file can be read off the values of its
bindings (`Outline.nestings`), and the parent of a dictionary is the first of them for its name.

Dictionaries of one name are one, so that a dictionary may be nested in one of its own name, in one
literal or in several.  Following parents ends unless it comes to such a dictionary
(`scanLines_parents`).
-/

namespace TclAtlas

open Relation

/-! ## The nestings of a literal -/

namespace DictEntry

mutual

/-- **The nestings in an entry** of the dictionary of a name, from the outside in: each name that is
the key of a literal with entries, and the name of the dictionary around it. -/
def nestings (name : Text) : DictEntry → List (Text × Text)
  | .plain _ _ => []
  | .nested k _ inner => (if inner.isEmpty then [] else [(k, name)]) ++ allNestings k inner

@[inherit_doc nestings]
def allNestings (name : Text) : List DictEntry → List (Text × Text)
  | [] => []
  | e :: es => e.nestings name ++ allNestings name es

end

end DictEntry

/-- **The nestings in the value of a binding**, if it is a dictionary literal. -/
def Binding.nestings (b : Binding) : List (Text × Text) :=
  match DictLiteral.body? b.value with
  | none => []
  | some body => DictEntry.allNestings b.name (DictLiteral.entries body)

/-- **The nestings of a file**, in the order of its bindings. -/
def Outline.nestings (o : Outline) : List (Text × Text) := o.bindings.flatMap Binding.nestings

/-- **A dictionary is first nested** in the dictionary of a name. -/
def Outline.FirstNested (o : Outline) (n p : Text) : Prop := o.nestings.lookup n = some p

namespace Finding

theorem filterMap_nesting?_ofKeys (location : Location) (name : Text) (parent : Option Text)
    (entries : List DictEntry) : (ofKeys location name parent entries).filterMap nesting? =
      if entries.isEmpty then [] else (parent.map (name, ·)).toList := by
  rw [ofKeys]
  split
  · rfl
  · rcases parent with _ | p <;> rfl

mutual

theorem filterMap_nesting?_ofValue (location : Location) (name : Text) : ∀ e : DictEntry,
    (ofValue location name e).filterMap nesting? = e.nestings name
  | .plain _ _ => by rw [ofValue, DictEntry.nestings, List.filterMap_nil]
  | .nested k _ inner => by
    rw [ofValue, DictEntry.nestings, List.filterMap_append, filterMap_nesting?_ofKeys,
      filterMap_nesting?_ofValues location k inner]
    rfl

theorem filterMap_nesting?_ofValues (location : Location) (name : Text) : ∀ es : List DictEntry,
    (ofValues location name es).filterMap nesting? = DictEntry.allNestings name es
  | [] => by rw [ofValues, DictEntry.allNestings, List.filterMap_nil]
  | e :: es => by
    rw [ofValues, DictEntry.allNestings, List.filterMap_append,
      filterMap_nesting?_ofValue location name e, filterMap_nesting?_ofValues location name es]

end

theorem filterMap_nesting?_ofDict (location : Location) (name : Text) (entries : List DictEntry) :
    (ofDict location name entries).filterMap nesting? = DictEntry.allNestings name entries := by
  rw [ofDict, List.filterMap_append, filterMap_nesting?_ofKeys, filterMap_nesting?_ofValues]
  split <;> rfl

/-- **Findings nest as their bindings say**: the nestings found are those in the values bound. -/
def NestAsBound (fs : List Finding) : Prop :=
  fs.filterMap nesting? = (fs.filterMap binding?).flatMap Binding.nestings

theorem NestAsBound.nil : NestAsBound [] := rfl

theorem NestAsBound.append {fs gs : List Finding} (hf : NestAsBound fs) (hg : NestAsBound gs) :
    NestAsBound (fs ++ gs) := by
  rw [NestAsBound, List.filterMap_append, hf, hg, List.filterMap_append, List.flatMap_append]

/-- Findings that neither nest nor bind. -/
theorem NestAsBound.of_none {fs : List Finding}
    (h : ∀ f ∈ fs, f.nesting? = none ∧ f.binding? = none) : NestAsBound fs := by
  rw [NestAsBound, List.filterMap_eq_nil_iff.mpr fun f hf => (h f hf).1,
    List.filterMap_eq_nil_iff.mpr fun f hf => (h f hf).2, List.flatMap_nil]

end Finding

/-! ## The nestings of a scan -/

namespace DictLiteral

theorem body?_trim (t : Text) : body? (Text.trim t) = body? t := by
  rw [body?, body?, Text.trim_trim]

end DictLiteral

namespace ScanState

open Finding

variable (s : ScanState) (l : LineAt)

/-- The nestings that a literal makes are those in the trimmed value. -/
theorem filterMap_nesting?_literalFindings (location : Location) (name value : Text) :
    (literalFindings location name value).filterMap nesting? =
      Binding.nestings ⟨name, Text.trim value, location⟩ := by
  rw [literalFindings, Binding.nestings, DictLiteral.body?_trim]
  rcases DictLiteral.body? value with _ | body
  · rfl
  · exact filterMap_nesting?_ofDict location name _

theorem nestAsBound_matchSet (words : List Word) : NestAsBound (s.matchSet l words).2 := by
  rw [matchSet.eq_def]
  split
  · simp only
    split
    · rw [NestAsBound, List.filterMap_append, filterMap_nesting?_literalFindings,
        List.filterMap_append, filterMap_literalFindings fun _ _ _ _ => rfl]
      exact (List.append_nil _).trans (List.flatMap_singleton ..).symm
    · exact .nil
  · exact .nil

theorem nestAsBound_matchLine : NestAsBound (s.matchLine l).2 := by
  refine matchLine_rec (motive := fun found => NestAsBound found.2) .nil
    (.of_none fun f hf => ?header) (fun _ _ _ _ => s.nestAsBound_matchSet l _)
    (.of_none fun f hf => ?block) (.of_none fun f hf => ?imports) (.of_none fun f hf => ?keys)
  case header =>
    obtain ⟨d, rfl⟩ := exists_of_mem_definitionFindings hf
    exact ⟨rfl, rfl⟩
  case block =>
    obtain ⟨ns, rfl⟩ := exists_of_mem_matchBlock hf
    exact ⟨rfl, rfl⟩
  case imports =>
    obtain ⟨i, rfl⟩ := exists_of_mem_importFindings hf
    exact ⟨rfl, rfl⟩
  case keys =>
    obtain ⟨n, keys, location, rfl⟩ := exists_of_mem_dictSetFindings hf
    exact ⟨rfl, rfl⟩

theorem nestAsBound_step : NestAsBound (s.step l).2 := by
  rw [step_snd]
  split
  · exact .nil
  · exact s.nestAsBound_matchLine l

/-- **A scan finds the nestings in the values that it binds.** -/
theorem nestAsBound_run (file : FileId) : ∀ (lines : List Text) (number : Nat) (s : ScanState),
    NestAsBound (run file number lines s).2
  | [], _, _ => .nil
  | text :: below, number, s =>
    (s.nestAsBound_step ⟨file, number, text, below⟩).append
      (nestAsBound_run file below (number + 1) _)

end ScanState

/-! ## Parents -/

/-- **The parent of a dictionary** is the one it is first nested in. -/
theorem parent?_scanLines (file : FileId) (lines : List Text) (n : Text) :
    (scanLines file lines).parent? n = (scanLines file lines).nestings.lookup n := by
  have hnest := ScanState.nestAsBound_run file lines 0 .start
  rw [scanLines, Outline.parent?_ofFindings, hnest, Outline.nestings, Outline.bindings_ofFindings]

/-- **Parents are first nestings**, and they make a forest except where these come back.  The parent
of a dictionary is the name of the dictionary that it is first nested in, by the values bound in the
file, and there is one of that name.  Following parents from a dictionary ends at one without a
parent exactly when no dictionary on the way is, by first nestings, nested in one of its own
name. -/
theorem scanLines_parents (file : FileId) (lines : List Text) :
    let o := scanLines file lines
    (∀ n, o.parent? n = o.nestings.lookup n) ∧
    (∀ n p, o.parent? n = some p → ∃ d, o.dicts.get? p = some d) ∧
    ∀ n d, o.dicts.get? n = some d → (o.ReachesRoot n ↔
      ∀ m, ReflTransGen o.FirstNested n m → ¬TransGen o.FirstNested m m) := by
  intro o
  have hwf : o.WellFormed := by
    have h := Scanner.wellFormed_foldl_scanLine file lines (List.range lines.length)
    rwa [Scanner.foldl_scanLine] at h
  have hparents : ∀ n p, o.parent? n = some p → ∃ d, o.dicts.get? p = some d := by
    intro n p hp
    obtain ⟨d, hd, hp⟩ := Option.bind_eq_some_iff.mp hp
    obtain ⟨e, he, -⟩ := hwf.hasKey_parent n d p hd hp
    exact ⟨e, he⟩
  have hkey : ∀ {n d}, o.dicts.get? n = some d → n ∈ o.dicts.keys := fun hd =>
    (o.dicts.mem_keys_iff _).mpr (hd ▸ rfl)
  have hchild : o.ChildOf = o.FirstNested := by
    funext n p
    rw [Outline.ChildOf, Outline.FirstNested, parent?_scanLines]
  refine ⟨parent?_scanLines file lines, hparents, fun n d hd => ?_⟩
  rw [← hchild]
  refine ⟨Outline.ReachesRoot.not_transGen, ?_⟩
  exact Outline.reachesRoot_of_not_transGen (fun n p hp => (hparents n p hp).elim fun _ => hkey)
    (hkey hd)

/-- **A dictionary under a key of its own name** is its own parent. -/
theorem not_forall_reachesRoot :
    let o := scanText ⟨0⟩ "set a [dict create a [dict create x 1]]\n".toList
    ¬∀ n d, o.dicts.get? n = some d → o.ReachesRoot n := by
  intro o h
  have hdict : o.dicts.get? ['a'] = some ⟨['a'], [['a'], ['x']], some ['a'], ⟨⟨0⟩, 0, 4⟩⟩ := by
    decide +kernel
  have hself : o.ChildOf ['a'] ['a'] := (Outline.childOf_iff hdict).mpr rfl
  exact (h _ _ hdict).not_transGen _ ReflTransGen.refl (TransGen.single hself)

end TclAtlas
