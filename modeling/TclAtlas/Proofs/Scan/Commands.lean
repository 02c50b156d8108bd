import TclAtlas.Proofs.Outline.Merging
import TclAtlas.Scan

/-!
# Proofs/Scan/Commands — what a line finds, command by command

What is said of every line is said of each command (`ScanState.matchLine_rec`).  A header defines, a
block is declared, an import is imported, and `dict set` and dictionary literals find keys.  No
command makes findings of several kinds but `set`, which binds after what it finds in the literal.
-/

namespace TclAtlas.ScanState

variable {s : ScanState} {l : LineAt} {words : List Word} {f : Finding}

/-- **A line is no command, or one of five**: by its first words it is a header, a binding, a block,
an import or keys. -/
theorem matchLine_rec {motive : ScanState × List Finding → Prop} (none : motive (s, []))
    (header : motive (s, s.definitionFindings l (splitWords l.text)))
    (binds : ∀ first others, splitWords l.text = first :: others → first.text = setWord →
      motive (s.matchSet l (first :: others)))
    (block : motive (s.matchBlock (splitWords l.text)))
    (imports : motive (s, importFindings (splitWords l.text)))
    (keys : motive (s, dictSetFindings l (splitWords l.text))) : motive (s.matchLine l) := by
  rw [matchLine]
  split
  · exact none
  next first others hwords =>
  split
  · exact header
  split
  · next hset => exact hwords ▸ binds first others hwords hset
  split
  · split
    · exact none
    split
    · exact block
    split
    · exact imports
    · exact none
  split
  · exact keys
  · exact none

/-! ## Kinds of findings -/

theorem exists_of_mem_definitionFindings (h : f ∈ s.definitionFindings l words) :
    ∃ d, f = .definition d := by
  rw [definitionFindings] at h
  split at h
  · exact absurd h List.not_mem_nil
  split at h
  · exact absurd h List.not_mem_nil
  · exact ⟨_, List.mem_singleton.mp h⟩

theorem exists_of_mem_literalFindings {location : Location} {name value : Text}
    (h : f ∈ literalFindings location name value) :
    ∃ n keys p, f = .dictKeys n keys p location := by
  rw [literalFindings] at h
  split at h
  · exact absurd h List.not_mem_nil
  · exact Finding.exists_of_mem_ofDict h

/-- What is no key is not found in a literal. -/
theorem filterMap_literalFindings {α : Type} {pick : Finding → Option α}
    (hpick : ∀ n keys p location, pick (.dictKeys n keys p location) = none) (location : Location)
    (name value : Text) : (literalFindings location name value).filterMap pick = [] := by
  refine List.filterMap_eq_nil_iff.mpr fun f hf => ?_
  obtain ⟨n, keys, p, rfl⟩ := exists_of_mem_literalFindings hf
  exact hpick n keys p location

theorem exists_of_mem_dictSetFindings (h : f ∈ dictSetFindings l words) :
    ∃ n keys location, f = .dictKeys n keys none location := by
  rw [dictSetFindings.eq_def] at h
  split at h
  · split at h
    · split at h
      · exact absurd h List.not_mem_nil
      · exact ⟨_, _, _, List.mem_singleton.mp h⟩
    · exact absurd h List.not_mem_nil
  · exact absurd h List.not_mem_nil

theorem exists_of_mem_matchBlock (h : f ∈ (s.matchBlock words).2) : ∃ ns, f = .declared ns := by
  rw [matchBlock.eq_def] at h
  split at h
  · simp only at h
    split at h
    · exact ⟨_, List.mem_singleton.mp h⟩
    · exact absurd h List.not_mem_nil
  · exact absurd h List.not_mem_nil

theorem exists_of_mem_importFindings (h : f ∈ importFindings words) : ∃ i, f = .imported i := by
  obtain ⟨w, -, hw⟩ := List.mem_filterMap.mp h
  obtain ⟨i, -, rfl⟩ := Option.map_eq_some_iff.mp hw
  exact ⟨i, rfl⟩

end TclAtlas.ScanState
