import TclAtlas.Proofs.Resolution.OwnFile

/-!
# Proofs/Resolution/Referents — resolution said of the outlines alone

A name is resolved through the tables of the catalog.  What it finds can be said without them: go
through all definitions with their slots (`Catalog.slotted`), and keep those that the name refers to
as seen from the origin (`Catalog.SeenFrom`).  So every answer is a selection from the sequence of
all definitions, in its order and without repetition (`resolve_selects`).
-/

namespace TclAtlas.Catalog

variable {c : Catalog} {origin : Option FileId}

/-! ## Definitions with their slots -/

/-- **All definitions with their slots**, in the order of files and lines. -/
def slotted (c : Catalog) : List (Slot × Definition) :=
  c.outlines.entries.flatMap fun e => e.2.definitions.zipIdx.map fun x => (⟨e.1, x.2⟩, x.1)

theorem map_snd_slotted (c : Catalog) : c.slotted.map Prod.snd = c.definitions := by
  have hentry : ∀ e ∈ c.outlines.entries,
      (e.2.definitions.zipIdx.map fun x => ((⟨e.1, x.2⟩ : Slot), x.1)).map Prod.snd =
        e.2.definitions := by
    intro e _
    rw [List.map_map]
    exact List.zipIdx_map_fst 0 e.2.definitions
  rw [slotted, List.map_flatMap, List.flatMap_congr hentry, definitions, OrderedMap.values,
    List.flatMap_map]

/-- **A slot stands with the definition that it holds.** -/
theorem mem_slotted_iff {s : Slot} {d : Definition} :
    (s, d) ∈ c.slotted ↔ c.definition? s = some d := by
  simp only [slotted, List.mem_flatMap, List.mem_map, Prod.exists, List.mem_zipIdx_iff_getElem?,
    Prod.mk.injEq, definition?, Option.bind_eq_bind, Option.bind_eq_some_iff, outline?,
    OrderedMap.get?_eq_some_iff]
  constructor
  · rintro ⟨file, o, ho, d, i, hd, rfl, rfl⟩
    exact ⟨o, ho, hd⟩
  · rintro ⟨o, ho, hd⟩
    exact ⟨s.file, o, ho, d, s.index, hd, rfl, rfl⟩

/-- **No slot stands twice.** -/
theorem nodup_slots (c : Catalog) : (c.slotted.map Prod.fst).Nodup := by
  have hkeys : c.outlines.entries.Pairwise fun e e' => e.1 ≠ e'.1 :=
    List.pairwise_map.mp c.outlines.nodup
  refine List.pairwise_map.mpr (List.pairwise_flatMap.mpr ⟨fun e _ => ?_, hkeys.imp ?_⟩)
  · -- within a file the positions differ
    exact List.pairwise_map.mpr ((pairwise_zipIdx _).imp fun hlt heq => hlt.ne (Slot.mk.inj heq).2)
  · intro e e' hne x hx y hy heq
    obtain ⟨_, -, rfl⟩ := List.mem_map.mp hx
    obtain ⟨_, -, rfl⟩ := List.mem_map.mp hy
    exact hne (Slot.mk.inj heq).1

/-! ## What can be called from a file -/

/-- **What can be called by its simple name** from an origin: everything when there is none, what
belongs to the root, to a namespace that the origin declares or imports as a whole, and what it
imports by its qualified name. -/
def SeenFrom (c : Catalog) (origin : Option FileId) (d : Definition) : Prop :=
  origin = none ∨ d.owner = none ∨
    ∃ file o ns, origin = some file ∧ c.outline? file = some o ∧ d.owner = some ns ∧
      (ns ∈ o.namespaces ∨ .wildcard ns ∈ o.imports ∨ .member d.qualifiedName ∈ o.imports)

/-- **A definition is visible** exactly when it can be called. -/
theorem visible_iff_seenFrom {d : Definition} :
    c.visible origin d = true ↔ c.SeenFrom origin d := by
  rcases origin with _ | file
  · simp [visible, SeenFrom]
  rcases ho : c.outline? file with _ | o
  · simp [visible, SeenFrom, ho, Definition.isGlobal]
  · rw [visible_of_outline? ho, Outline.sees_iff, SeenFrom]
    rcases howner : d.owner with _ | ns
    · simp
    · simp [ho, or_comm (a := Import.wildcard ns ∈ o.imports)]

/-! ## Resolution as a selection -/

/-- **What a name refers to is selected** from all definitions. -/
theorem Coherent.exists_resolve_eq_filter (h : c.Coherent) (origin : Option FileId)
    (written : Text) :
    ∃ p : Definition → Bool, c.resolve origin written = c.definitions.filter p := by
  rw [resolve]
  split
  · exact ⟨fun _ => false, by simp⟩
  split
  · exact ⟨_, h.withQualifiedName_eq _⟩
  · rw [h.withSimpleName_eq, preferVisible]
    split
    · exact ⟨_, rfl⟩
    · exact ⟨_, List.filter_filter⟩

/-- **What a name refers to**, whatever the history: of the definitions of all files, each taken
with its slot, those with the name as qualified name, if a separator is left in it without its
anchor; else those of this simple name that can be called from the origin, or all of this simple
name when none can.  The empty name refers to nothing. -/
theorem resolve_selects (us : List CatalogUpdate) (origin : Option FileId) (written : Text) :
    let c := replay us
    let n := Name.unanchored written
    c.slotted.map Prod.snd = c.definitions ∧ (c.slotted.map Prod.fst).Nodup ∧
    (∀ s d, (s, d) ∈ c.slotted ↔ c.definition? s = some d) ∧
    ∃ found : List (Slot × Definition), found.Sublist c.slotted ∧
      c.resolve origin written = found.map Prod.snd ∧
      ∀ s d, (s, d) ∈ found ↔ c.definition? s = some d ∧ n ≠ [] ∧
        (Name.separator <:+: n ∧ d.qualifiedName = n ∨
          ¬ Name.separator <:+: n ∧ d.name = n ∧
            (c.SeenFrom origin d ∨ ∀ e ∈ c.definitions, e.name = n → ¬ c.SeenFrom origin e)) := by
  intro c n
  have h : c.Coherent := coherent_replay us
  obtain ⟨p, hp⟩ := h.exists_resolve_eq_filter origin written
  refine ⟨map_snd_slotted c, nodup_slots c, fun s d => mem_slotted_iff,
    c.slotted.filter (p ·.2), List.filter_sublist, ?_, fun s d => ?_⟩
  · rw [hp, ← map_snd_slotted, List.filter_map]
    rfl
  · rw [List.mem_filter, mem_slotted_iff, and_congr_right_iff]
    intro hd
    have hdefined : d ∈ c.definitions := by
      rw [← map_snd_slotted]
      exact List.mem_map_of_mem (mem_slotted_iff.mpr hd)
    have hselected : p d = true ↔ d ∈ c.resolve origin written := by
      rw [hp, List.mem_filter, and_iff_right hdefined]
    have hseen : ∀ e, c.visible origin e = false ↔ ¬ c.SeenFrom origin e := fun e => by
      rw [← visible_iff_seenFrom, Bool.not_eq_true]
    rw [hselected, h.mem_resolve_iff (n := n) rfl, and_iff_right hdefined]
    simp only [visible_iff_seenFrom, hseen, ← Name.isQualified_iff]
    split <;> simp [*]

end TclAtlas.Catalog
