import TclAtlas.Proofs.Scan.WellFormed
import TclAtlas.Query.Definitions

/-!
# Proofs/Resolution/QualifiedNames — which definitions are found under their qualified names

To resolve a name is to drop its anchor and to look up what is left: by the qualified name if there
is a separator in it, else by the simple name, where visible definitions are preferred
(`Coherent.mem_resolve_iff`).

The qualified name of a definition is found as it stands, unless it looks anchored itself.  Then its
first separator is taken for an anchor, and the name left over is never that of the definition
(`resolve_qualifiedName_iff`).  This happens for an owner written with more than one anchor, of
which only the first was dropped, and for one whose name is a single colon.
-/

namespace TclAtlas

namespace Catalog

variable {c : Catalog} {origin : Option FileId} {d : Definition}

/-! ## What a name refers to -/

/-- **A definition of the root namespace is visible** from everywhere. -/
theorem visible_of_isGlobal (h : d.isGlobal = true) : c.visible origin d = true := by
  rcases origin with _ | file
  · rfl
  · have howner : d.owner = none := Option.isNone_iff_eq_none.mp h
    rw [visible]
    split
    · exact h
    · rw [Outline.sees, howner]

/-- **Of some candidates** the visible ones are preferred, and all are taken when there is none. -/
theorem mem_preferVisible_iff {ds : List Definition} :
    d ∈ c.preferVisible origin ds ↔
      d ∈ ds ∧ (c.visible origin d = true ∨ ∀ e ∈ ds, c.visible origin e = false) := by
  rw [preferVisible]
  split
  · next hnone =>
    have hhidden : ∀ e ∈ ds, c.visible origin e = false := by simpa using hnone
    rw [and_iff_left (Or.inr hhidden)]
  · next seen hne =>
    rw [List.mem_filter, and_congr_right_iff]
    refine fun _ => (or_iff_left fun hhidden => hne ?_).symm
    exact List.filter_eq_nil_iff.mpr fun e he => by simp [hhidden e he]

/-- **What a name refers to**: the definitions of the name without its anchor. -/
theorem Coherent.mem_resolve_iff (h : c.Coherent) {written n : Text}
    (hn : Name.unanchored written = n) :
    d ∈ c.resolve origin written ↔ n ≠ [] ∧ d ∈ c.definitions ∧
      if Name.isQualified n then d.qualifiedName = n
      else d.name = n ∧ (c.visible origin d = true ∨
        ∀ e ∈ c.definitions, e.name = n → c.visible origin e = false) := by
  simp only [resolve, hn, h.withQualifiedName_eq, h.withSimpleName_eq]
  by_cases hnil : n = []
  · simp [hnil]
  · rw [if_neg hnil]
    split <;> simp [hnil, mem_preferVisible_iff, and_assoc]

/-- **What a simple name refers to**: the visible definitions of the name, or all when there is
none. -/
theorem Coherent.mem_resolve_simple_iff (h : c.Coherent) {n : Text}
    (hn : Name.isQualified n = false) :
    d ∈ c.resolve origin n ↔ n ≠ [] ∧ d ∈ c.definitions ∧ d.name = n ∧
      (c.visible origin d = true ∨
        ∀ e ∈ c.definitions, e.name = n → c.visible origin e = false) := by
  have hanchored := Name.isAnchored_of_not_isQualified hn
  rw [h.mem_resolve_iff (Name.unanchored_of_not_isAnchored hanchored), hn,
    if_neg Bool.false_ne_true]

/-! ## Qualified names -/

/-- **Under its qualified name** a well-named definition is found exactly when this name does not
look anchored. -/
theorem Coherent.mem_resolve_qualifiedName_iff (h : c.Coherent) (hd : d ∈ c.definitions)
    (hnamed : d.WellNamed) :
    d ∈ c.resolve origin d.qualifiedName ↔ Name.isAnchored d.qualifiedName = false := by
  have hqualified := hnamed.isQualified_qualifiedName
  rcases hanchored : Name.isAnchored d.qualifiedName
  · rw [h.mem_resolve_iff (Name.unanchored_of_not_isAnchored hanchored), hqualified]
    rcases howner : d.owner with _ | ns
    · have hglobal : d.isGlobal = true := by rw [Definition.isGlobal, howner]; rfl
      have hname : d.qualifiedName = d.name := by rw [Definition.qualifiedName, howner]; rfl
      simp [hd, hglobal, hname, hnamed.name_ne_nil, visible_of_isGlobal hglobal]
    · have hglobal : d.isGlobal = false := by rw [Definition.isGlobal, howner]; rfl
      have hne : d.qualifiedName ≠ [] := by
        simp [Definition.qualifiedName, howner, Name.qualify, Name.join, Name.separator]
      simp [hd, hglobal, hne]
  · -- without the separator taken for an anchor it is another name
    obtain ⟨hqualifiedName, hname⟩ := hnamed.unanchored_qualifiedName_ne hanchored
    refine iff_of_false (fun hresolve => ?_) (by simp)
    obtain ⟨-, -, hfound⟩ := (h.mem_resolve_iff rfl).mp hresolve
    split at hfound
    · exact hqualifiedName hfound
    · exact hname hfound.1

/-- Scans give well-named definitions. -/
theorem wellNamed_replay {us : List CatalogUpdate} (hus : ∀ u ∈ us, u.given = []) :
    ∀ d ∈ (replay us).definitions, d.WellNamed :=
  wellNamed_of_scanned fun u hu o ho => absurd ho (by simp [hus u hu])

/-- **A qualified name that is offered** is the name of a definition. -/
theorem exists_of_mem_callables (hnamed : ∀ d ∈ c.definitions, d.WellNamed)
    {asker : Option FileId} {start n : Text} (hn : n ∈ c.callables asker start)
    (hqualified : Name.isQualified n = true) : ∃ d ∈ c.definitions, d.qualifiedName = n := by
  rw [callables, List.mem_filter, List.mem_eraseDups, List.mem_append] at hn
  rcases hn.1 with hsimple | hqualifiedName
  · obtain ⟨d, hd, rfl⟩ := List.mem_map.mp hsimple
    have hname := (hnamed d (List.mem_filter.mp hd).1).isQualified_name
    exact absurd hqualified (by simp [hname])
  · obtain ⟨d, hd, hdn⟩ := List.mem_map.mp hqualifiedName
    exact ⟨d, (List.mem_filter.mp hd).1, hdn⟩

/-- **Which definitions of scanned texts are found under their qualified names**: whatever the
history and whoever asks, those whose qualified name does not look anchored.  The others are those
whose owner is still anchored or is a single colon.  Likewise a qualified name that is offered leads
to a definition of this name exactly when it does not look anchored. -/
theorem resolve_qualifiedName_iff {us : List CatalogUpdate} (hus : ∀ u ∈ us, u.given = []) :
    (∀ d ∈ (replay us).definitions, ∀ origin,
      d ∈ (replay us).resolve origin d.qualifiedName ↔ Name.isAnchored d.qualifiedName = false) ∧
    (∀ d ∈ (replay us).definitions, Name.isAnchored d.qualifiedName = true ↔
      ∃ ns, d.owner = some ns ∧ (Name.isAnchored ns = true ∨ ns = [':'])) ∧
    (∀ asker start, ∀ n ∈ (replay us).callables asker start, Name.isQualified n = true →
      ∀ origin, (∃ d ∈ (replay us).resolve origin n, d.qualifiedName = n) ↔
        Name.isAnchored n = false) := by
  have hcoherent := coherent_replay us
  have hnamed := wellNamed_replay hus
  refine ⟨fun d hd origin => hcoherent.mem_resolve_qualifiedName_iff hd (hnamed d hd),
    fun d hd => (hnamed d hd).isAnchored_qualifiedName_iff, fun asker start n hn hq origin => ?_⟩
  obtain ⟨d, hd, rfl⟩ := exists_of_mem_callables hnamed hn hq
  constructor
  · rintro ⟨e, he, hname⟩
    have hdefined := ((hcoherent.mem_resolve_iff rfl).mp he).2.1
    rw [← hname] at he ⊢
    exact (hcoherent.mem_resolve_qualifiedName_iff hdefined (hnamed e hdefined)).mp he
  · intro hanchored
    exact ⟨d, (hcoherent.mem_resolve_qualifiedName_iff hd (hnamed d hd)).mpr hanchored, rfl⟩

/-- Two texts that define the same name, in a block and from outside, seen from a third file. -/
theorem resolve_qualifiedName_iff_block :
    let us : List CatalogUpdate :=
      [.ofTexts [(⟨0⟩, "namespace eval a \x7b\n proc x \x7b\x7d \x7b\x7d\n\x7d".toList)],
        .applyText ⟨1⟩ "proc ::a::x \x7b\x7d \x7b\x7d".toList]
    let d : Definition := ⟨.proc, ['x'], [], some ['a'], ⟨⟨1⟩, 0, 5⟩, true⟩
    (∀ u ∈ us, u.given = []) ∧ d ∈ (replay us).definitions ∧
      d ∈ (replay us).resolve (some ⟨2⟩) "a::x".toList := by
  intro us d
  have hus : ∀ u ∈ us, u.given = [] := by decide
  have hd : d ∈ (replay us).definitions := by decide +kernel
  obtain ⟨hfound, -, -⟩ := resolve_qualifiedName_iff hus
  exact ⟨hus, hd, (hfound d hd (some ⟨2⟩)).mpr (by decide)⟩

/-- **Not every definition is found under its qualified name**, and not every qualified name that is
offered leads to a definition: of two anchors in front of a name one is left in the owner. -/
theorem not_resolve_qualifiedName :
    (¬ ∀ us : List CatalogUpdate, (∀ u ∈ us, u.given = []) → ∀ d ∈ (replay us).definitions,
      ∀ origin, d ∈ (replay us).resolve origin d.qualifiedName) ∧
    ¬ ∀ us : List CatalogUpdate, (∀ u ∈ us, u.given = []) → ∀ asker start,
      ∀ n ∈ (replay us).callables asker start, Name.isQualified n = true →
        ∀ origin, (replay us).resolve origin n ≠ [] := by
  let us : List CatalogUpdate :=
    [.applyText ⟨0⟩ "proc ::::a::x \x7b\x7d \x7b\x7d".toList]
  have hus : ∀ u ∈ us, u.given = [] := by decide
  constructor
  · intro h
    have hd : (⟨.proc, ['x'], [], some "::a".toList, ⟨⟨0⟩, 0, 5⟩, true⟩ : Definition) ∈
        (replay us).definitions := by decide +kernel
    exact absurd (h us hus _ hd none) (by decide +kernel)
  · intro h
    have hn : "::a::x".toList ∈ (replay us).callables none [] := by decide +kernel
    exact absurd (h us hus none [] _ hn (by decide) none) (by decide +kernel)

end Catalog

end TclAtlas
