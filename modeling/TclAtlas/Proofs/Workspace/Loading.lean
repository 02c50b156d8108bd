import TclAtlas.Workspace.Source
import Mathlib.Data.List.Basic

/-!
# Proofs/Workspace/Loading — which files are loaded for a workspace

Whatever the source of the files, the paths of a workspace are merged from the lists found at its
search paths, so that no path comes twice, in whatever spelling (`FileSource.pairwise_load`).  A
file is loaded if its path is one of these and it can be read (`FileSource.mem_load_iff`).

Files are registered under the texts of their paths.  Two paths may have one text, though not if
both are texts themselves (`FileSource.nodup_keys_of_texts`).
-/

namespace TclAtlas

/-! ## Merging -/

namespace Path

theorem same_refl (p : Path) : p.same p = true := beq_self_eq_true p.components

theorem same_comm (p q : Path) : p.same q = q.same p := BEq.comm

theorem mem_of_mem_eraseDupsBy : ∀ {ps : List Path} {p : Path}, p ∈ ps.eraseDupsBy same → p ∈ ps
  | [], _, h => absurd h (by simp)
  | q :: ps, p, h => by
    rw [List.eraseDupsBy_cons] at h
    rcases List.mem_cons.mp h with rfl | h
    · exact List.mem_cons_self
    · exact List.mem_cons_of_mem q (List.mem_filter.mp (mem_of_mem_eraseDupsBy h)).1
  termination_by ps => ps.length
  decreasing_by exact Nat.lt_succ_of_le (List.length_filter_le ..)

theorem exists_mem_eraseDupsBy : ∀ {ps : List Path} {p : Path}, p ∈ ps →
    ∃ q ∈ ps.eraseDupsBy same, p.same q = true
  | [], _, h => absurd h (by simp)
  | q :: ps, p, h => by
    rw [List.eraseDupsBy_cons]
    rcases List.mem_cons.mp h with rfl | h
    · exact ⟨p, List.mem_cons_self, same_refl p⟩
    · rcases hsame : p.same q with _ | _
      · obtain ⟨q', hq', hpq'⟩ := exists_mem_eraseDupsBy
          (List.mem_filter.mpr ⟨h, by simp [hsame]⟩ : p ∈ ps.filter fun b => b.same q = false)
        exact ⟨q', List.mem_cons_of_mem q hq', hpq'⟩
      · exact ⟨q, List.mem_cons_self, hsame⟩
  termination_by ps => ps.length
  decreasing_by exact Nat.lt_succ_of_le (List.length_filter_le ..)

/-- **Merged paths are all different**, not only in their spelling. -/
theorem pairwise_eraseDupsBy : ∀ ps : List Path,
    (ps.eraseDupsBy same).Pairwise fun p q => q.same p = false
  | [] => .nil
  | p :: ps => by
    rw [List.eraseDupsBy_cons]
    refine .cons (fun q hq => ?_) (pairwise_eraseDupsBy _)
    simpa using (List.mem_filter.mp (mem_of_mem_eraseDupsBy hq)).2
  termination_by ps => ps.length
  decreasing_by exact Nat.lt_succ_of_le (List.length_filter_le ..)

end Path

/-! ## The texts of a workspace -/

namespace FileSource

variable {σ : Type} (src : FileSource σ) (files : σ) (sel : Selection)

/-- **The text that a workspace holds for a path**, if it is one of its paths and can be read. -/
def textAt? (p : Path) : Option Text :=
  if p ∈ src.paths files sel then (src.read files p).toOption else none

/-- **The files of a workspace as they are registered**, with their texts. -/
def keyed : List (FileKey × Text) := (src.load files sel).map LoadedFile.keyed

variable {src files sel}

/-- **The files loaded are the paths that have a text**, with their texts. -/
theorem mem_load_iff {f : LoadedFile} :
    f ∈ src.load files sel ↔ src.textAt? files sel f.path = some f.text := by
  rw [load, List.mem_filterMap, textAt?]
  constructor
  · rintro ⟨p, hp, hf⟩
    obtain ⟨text, htext, rfl⟩ := Option.map_eq_some_iff.mp hf
    rw [if_pos hp, htext]
  · intro h
    split at h
    · next hp => exact ⟨f.path, hp, by rw [h]; rfl⟩
    · exact absurd h (by simp)

theorem mem_keyed_iff {k : FileKey} {text : Text} : (k, text) ∈ src.keyed files sel ↔
    ∃ p, p.shown = k ∧ src.textAt? files sel p = some text := by
  rw [keyed, List.mem_map]
  constructor
  · rintro ⟨f, hf, heq⟩
    obtain ⟨hpath, rfl⟩ : f.path.shown = k ∧ f.text = text := Prod.mk.inj heq
    exact ⟨f.path, hpath, mem_load_iff.mp hf⟩
  · rintro ⟨p, rfl, htext⟩
    exact ⟨⟨p, text⟩, mem_load_iff.mpr htext, rfl⟩

variable (src files sel)

/-- **No path is loaded twice**, in whatever spelling. -/
theorem pairwise_load :
    (src.load files sel).Pairwise fun f g => g.path.same f.path = false := by
  refine List.Pairwise.filterMap _ ?_ (Path.pairwise_eraseDupsBy _)
  intro p q hpq f hf g hg
  obtain ⟨_, -, rfl⟩ := Option.map_eq_some_iff.mp hf
  obtain ⟨_, -, rfl⟩ := Option.map_eq_some_iff.mp hg
  exact hpq

theorem keys_keyed :
    (src.keyed files sel).map Prod.fst = (src.load files sel).map fun f => f.path.shown := by
  rw [keyed, List.map_map]
  rfl

variable {src files sel}

/-- **Files whose paths have different texts** are registered under different keys. -/
theorem nodup_keys (h : ∀ f ∈ src.load files sel, ∀ g ∈ src.load files sel,
    f.path.shown = g.path.shown → f.path = g.path) :
    ((src.keyed files sel).map Prod.fst).Nodup := by
  rw [keys_keyed]
  refine List.pairwise_map.mpr (((src.pairwise_load files sel).imp_of_mem ?_))
  intro f g hf hg hsame heq
  rw [h f hf g hg heq, Path.same_refl] at hsame
  exact Bool.noConfusion hsame

/-- **Paths that are texts** are registered under different keys. -/
theorem nodup_keys_of_texts (h : ∀ f ∈ src.load files sel, ∃ t, f.path = Path.ofText t) :
    ((src.keyed files sel).map Prod.fst).Nodup := by
  refine nodup_keys fun f hf g hg heq => ?_
  obtain ⟨t, ht⟩ := h f hf
  obtain ⟨u, hu⟩ := h g hg
  rw [ht, hu, Path.shown_ofText, Path.shown_ofText] at heq
  rw [ht, hu, heq]

end FileSource

end TclAtlas
