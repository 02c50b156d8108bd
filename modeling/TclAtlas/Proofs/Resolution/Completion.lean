import TclAtlas.Proofs.Ordered.Firsts
import TclAtlas.Proofs.Resolution.OwnFile
import TclAtlas.Proofs.Scan.WellFormed

/-!
# Proofs/Resolution/Completion — the names that are offered are those that resolve

From an origin two groups of names are offered: the simple names of the visible definitions, then
the qualified names of all definitions outside the root.  In a catalog of scans no name of the first
group holds a separator and every name of the second does, so the two groups do not overlap
(`callables_eq_append`), and a name is offered because of definitions of its own kind only.

A simple name is then offered exactly when it resolves to something visible, without recourse to
what is not; a qualified name when there is a definition of this name
(`callables_agree_with_resolve`).
-/

namespace TclAtlas.Catalog

variable {c : Catalog} {origin : Option FileId}

/-! ## The two groups of names -/

/-- The simple names of the visible definitions. -/
def simpleNames (c : Catalog) (origin : Option FileId) : List Text :=
  (c.visibleDefinitions origin).map Definition.name

/-- The qualified names of the definitions outside the root. -/
def memberNames (c : Catalog) : List Text :=
  (c.definitions.filter (!·.isGlobal)).map Definition.qualifiedName

theorem mem_simpleNames_iff {n : Text} :
    n ∈ c.simpleNames origin ↔ ∃ d ∈ c.definitions, c.visible origin d = true ∧ d.name = n := by
  simp [simpleNames, visibleDefinitions, and_assoc]

theorem mem_memberNames_iff {n : Text} :
    n ∈ c.memberNames ↔ ∃ d ∈ c.definitions, d.isGlobal = false ∧ d.qualifiedName = n := by
  simp [memberNames, and_assoc]

/-- **Names that begin with a text** are those of all names that do. -/
theorem callables_eq_filter (c : Catalog) (origin : Option FileId) (start : Text) :
    c.callables origin start =
      (c.callables origin []).filter (Name.unanchored start).isPrefixOf := by
  have hall : (c.simpleNames origin ++ c.memberNames).eraseDups.filter
      (Name.unanchored []).isPrefixOf = (c.simpleNames origin ++ c.memberNames).eraseDups :=
    List.filter_eq_self.mpr fun _ _ => rfl
  exact congrArg (List.filter _) hall.symm

section WellNamed

variable (hnamed : ∀ d ∈ c.definitions, d.WellNamed)

include hnamed

theorem isQualified_of_mem_simpleNames {n : Text} (hn : n ∈ c.simpleNames origin) :
    Name.isQualified n = false := by
  obtain ⟨d, hd, -, rfl⟩ := mem_simpleNames_iff.mp hn
  exact (hnamed d hd).isQualified_name

theorem isQualified_of_mem_memberNames {n : Text} (hn : n ∈ c.memberNames) :
    Name.isQualified n = true := by
  obtain ⟨d, hd, hglobal, rfl⟩ := mem_memberNames_iff.mp hn
  simp [(hnamed d hd).isQualified_qualifiedName, hglobal]

/-- **All names that are offered** are the simple names, then the qualified ones. -/
theorem callables_eq_append (origin : Option FileId) :
    c.callables origin [] = (c.simpleNames origin).eraseDups ++ c.memberNames.eraseDups := by
  have hdisjoint : ∀ n ∈ c.memberNames, n ∉ c.simpleNames origin := by
    intro n hmember hsimple
    have hplain := isQualified_of_mem_simpleNames hnamed hsimple
    exact absurd (isQualified_of_mem_memberNames hnamed hmember) (by simp [hplain])
  rw [← Distinct.eraseDups_append_of_disjoint hdisjoint]
  exact List.filter_eq_self.mpr fun _ _ => rfl

theorem mem_callables_iff {n : Text} :
    n ∈ c.callables origin [] ↔ if Name.isQualified n then n ∈ c.memberNames
      else n ∈ c.simpleNames origin := by
  rw [callables_eq_append hnamed origin, List.mem_append, List.mem_eraseDups, List.mem_eraseDups]
  split
  · next hn =>
    refine or_iff_right fun hsimple => ?_
    exact absurd hn (by simp [isQualified_of_mem_simpleNames hnamed hsimple])
  · next hn => exact or_iff_left fun hmember => hn (isQualified_of_mem_memberNames hnamed hmember)

/-! ## Offered names and what they refer to -/

/-- **A simple name is offered** exactly when something visible is found under it. -/
theorem Coherent.mem_callables_iff_resolve (h : c.Coherent) (origin : Option FileId) {n : Text}
    (hn : Name.isQualified n = false) :
    n ∈ c.callables origin [] ↔ ∃ d ∈ c.resolve origin n, c.visible origin d = true := by
  rw [mem_callables_iff hnamed, hn, if_neg Bool.false_ne_true, mem_simpleNames_iff]
  constructor
  · rintro ⟨d, hd, hvisible, rfl⟩
    refine ⟨d, ?_, hvisible⟩
    rw [h.mem_resolve_name_iff hd (hnamed d hd)]
    exact Or.inl hvisible
  · rintro ⟨d, hd, hvisible⟩
    obtain ⟨-, hd, hname, -⟩ := (h.mem_resolve_simple_iff hn).mp hd
    exact ⟨d, hd, hvisible, hname⟩

/-- **A qualified name is offered** exactly when there is a definition of this name. -/
theorem Coherent.mem_callables_iff_withQualifiedName (h : c.Coherent) {n : Text}
    (hn : Name.isQualified n = true) :
    n ∈ c.callables origin [] ↔ c.withQualifiedName n ≠ [] := by
  rw [mem_callables_iff hnamed, if_pos hn, mem_memberNames_iff, h.withQualifiedName_eq,
    Ne, List.filter_eq_nil_iff]
  constructor
  · rintro ⟨d, hd, -, hdn⟩ hnone
    exact hnone d hd (by simpa using hdn)
  · intro hsome
    obtain ⟨d, hd, hdn⟩ : ∃ d ∈ c.definitions, d.qualifiedName = n := by simpa using hsome
    refine ⟨d, hd, ?_, hdn⟩
    have hqualified := (hnamed d hd).isQualified_qualifiedName
    rw [hdn, hn] at hqualified
    simpa using hqualified.symm

end WellNamed

/-- **Where something visible is found under a simple name**, all that is found is visible. -/
theorem Coherent.visible_of_mem_resolve (h : c.Coherent) {n : Text}
    (hn : Name.isQualified n = false) {d : Definition} (hd : d ∈ c.resolve origin n)
    (hvisible : c.visible origin d = true) :
    ∀ e ∈ c.resolve origin n, c.visible origin e = true := by
  intro e he
  obtain ⟨-, hdefined, hname, -⟩ := (h.mem_resolve_simple_iff hn).mp hd
  obtain ⟨-, -, -, hseen | hnone⟩ := (h.mem_resolve_simple_iff hn).mp he
  · exact hseen
  · exact absurd hvisible (by simp [hnone d hdefined hname])

/-- **In a catalog of scans the names that are offered agree with resolution**, from every origin.
A name without a separator is offered exactly when it resolves to something visible, and then to
nothing else; a name with one exactly when it is the qualified name of a definition.  No name is
offered twice.  The simple names come first, in the order in which visible definitions first have
them, then the qualified names of the definitions outside the root, in the order in which these
first have them.  The names with a given beginning are those of all names that have it. -/
theorem callables_agree_with_resolve {us : List CatalogUpdate}
    (hus : ∀ u ∈ us, ∀ o ∈ u.given, o.Scanned) (origin : Option FileId) :
    let c := replay us
    (∀ n, ¬ Name.separator <:+: n →
      (n ∈ c.callables origin [] ↔ ∃ d ∈ c.resolve origin n, c.visible origin d = true) ∧
      (n ∈ c.callables origin [] → ∀ d ∈ c.resolve origin n, c.visible origin d = true)) ∧
    (∀ n, Name.separator <:+: n → (n ∈ c.callables origin [] ↔ c.withQualifiedName n ≠ [])) ∧
    (c.callables origin []).Nodup ∧
    (∃ simple qualified, c.callables origin [] = simple ++ qualified ∧
      (∀ n ∈ simple, ¬ Name.separator <:+: n) ∧ (∀ n ∈ qualified, Name.separator <:+: n) ∧
      Distinct.Firsts (c.simpleNames origin) simple ∧ Distinct.Firsts c.memberNames qualified) ∧
    ∀ start, c.callables origin start =
      (c.callables origin []).filter (Name.unanchored start).isPrefixOf := by
  intro c
  have h : c.Coherent := coherent_replay us
  have hnamed : ∀ d ∈ c.definitions, d.WellNamed := wellNamed_of_scanned hus
  have hplain : ∀ n, ¬ Name.separator <:+: n → Name.isQualified n = false := fun n hn =>
    Bool.eq_false_iff.mpr fun hq => hn (Name.isQualified_iff.mp hq)
  have hsimple : ∀ n ∈ (c.simpleNames origin).eraseDups, ¬ Name.separator <:+: n := by
    intro n hn hsep
    have hn := isQualified_of_mem_simpleNames hnamed (List.mem_eraseDups.mp hn)
    exact absurd (Name.isQualified_iff.mpr hsep) (by simp [hn])
  have hqualified : ∀ n ∈ c.memberNames.eraseDups, Name.separator <:+: n := fun n hn =>
    Name.isQualified_iff.mp (isQualified_of_mem_memberNames hnamed (List.mem_eraseDups.mp hn))
  have happend := callables_eq_append hnamed origin
  refine ⟨fun n hn => ?_, fun n hn => ?_, ?_, ?_, c.callables_eq_filter origin⟩
  · have hiff := h.mem_callables_iff_resolve hnamed origin (hplain n hn)
    refine ⟨hiff, fun hoffered => ?_⟩
    obtain ⟨d, hd, hvisible⟩ := hiff.mp hoffered
    exact h.visible_of_mem_resolve (hplain n hn) hd hvisible
  · exact h.mem_callables_iff_withQualifiedName hnamed (Name.isQualified_iff.mpr hn)
  · rw [happend]
    refine List.nodup_append.mpr ⟨(Distinct.firsts_eraseDups _).nodup,
      (Distinct.firsts_eraseDups _).nodup, ?_⟩
    rintro n hn _ hn' rfl
    exact hsimple n hn (hqualified n hn')
  · exact ⟨_, _, happend, hsimple, hqualified, Distinct.firsts_eraseDups _,
      Distinct.firsts_eraseDups _⟩

/-- From a file that imports one member of a namespace, which is defined again at the root. -/
theorem callables_agree_with_resolve_imported :
    let us : List CatalogUpdate :=
      [.ofTexts [(⟨0⟩, "proc a::x \x7b\x7d \x7b\x7d\nproc a::y \x7b\x7d \x7b\x7d".toList),
        (⟨1⟩, "proc x \x7b\x7d \x7b\x7d".toList)],
        .apply ⟨2⟩ (scanText ⟨3⟩ "namespace import a::x".toList)]
    (∀ u ∈ us, ∀ o ∈ u.given, o.Scanned) ∧
      (replay us).callables (some ⟨2⟩) [] = [['x'], "a::x".toList, "a::y".toList] ∧
      ∀ d ∈ (replay us).resolve (some ⟨2⟩) ['x'], (replay us).visible (some ⟨2⟩) d = true := by
  intro us
  have hus : ∀ u ∈ us, ∀ o ∈ u.given, o.Scanned := by
    have hscanned := Outline.scanned_scanText ⟨3⟩ "namespace import a::x".toList
    simpa [us, CatalogUpdate.given] using hscanned
  have hoffered : (replay us).callables (some ⟨2⟩) [] = [['x'], "a::x".toList, "a::y".toList] := by
    decide +kernel
  obtain ⟨hsimple, -⟩ := callables_agree_with_resolve hus (some ⟨2⟩)
  obtain ⟨-, hvisible⟩ := hsimple ['x'] (by decide)
  exact ⟨hus, hoffered, hvisible (by rw [hoffered]; decide)⟩

end TclAtlas.Catalog
