import TclAtlas.Proofs.Resolution.QualifiedNames
import TclAtlas.Proofs.Scan.Origins

/-!
# Proofs/Resolution/OwnFile — whether a file sees its own definitions

A definition with a plain name belongs to the block around it (`Scanner.Origin.owner_eq`), and the
scan declares this block (`Scanner.mem_namespaces_of_blockAt`).  So its file sees it, as long as the
owner is the block by the very name under which it was declared.

The owner is the name of the block without an anchor.  The scan dropped one anchor already; where a
second one is left the two names differ, and the file sees the definition only by chance: when it
also declares or imports the owner, or imports the definition (`own_definition_visible_iff`).
-/

namespace TclAtlas

/-- **What a file sees**: what belongs to the root, to a namespace it declares or imports, and what
it imports by name. -/
theorem Outline.sees_iff {o : Outline} {d : Definition} :
    o.sees d = true ↔ ∀ ns, d.owner = some ns →
      ns ∈ o.namespaces ∨ .member d.qualifiedName ∈ o.imports ∨ .wildcard ns ∈ o.imports := by
  have hmem : ∀ {f : Import → Option Text} {i : Text → Import},
      (∀ j n, f j = some n ↔ j = i n) → ∀ n, n ∈ o.imports.filterMap f ↔ i n ∈ o.imports := by
    intro f i h n
    simp [h]
  have hmember : ∀ n, n ∈ o.importedMembers ↔ .member n ∈ o.imports :=
    hmem fun j n => by cases j <;> simp
  have hwildcard : ∀ ns, ns ∈ o.importedNamespaces ↔ .wildcard ns ∈ o.imports :=
    hmem fun j n => by cases j <;> simp
  rw [sees]
  rcases d.owner with _ | ns
  · simp
  · simp [declares, hwildcard, hmember, or_assoc]

/-- **What a file sees of a declared block**: all of it, unless the name of the block has an anchor
left.  Then it sees what it would see of the namespace without the anchor. -/
theorem Outline.sees_iff_of_block {o : Outline} {d : Definition} {block : Option Text}
    (howner : d.owner = block.bind Name.asNamespace)
    (hdeclared : ∀ ns, block = some ns → ns ∈ o.namespaces) :
    o.sees d = true ↔ ∀ ns owner, block = some ns → Name.isAnchored ns = true →
      Name.asNamespace ns = some owner →
        owner ∈ o.namespaces ∨ .member d.qualifiedName ∈ o.imports ∨
          .wildcard owner ∈ o.imports := by
  rw [sees_iff]
  constructor
  · intro hsees ns owner hblock _ hns
    refine hsees owner ?_
    rw [howner, hblock, Option.bind_some, hns]
  · intro hsees owner hd
    obtain ⟨ns, hblock, hns⟩ := Option.bind_eq_some_iff.mp (howner.symm.trans hd)
    rcases hanchored : Name.isAnchored ns
    · -- without an anchor the owner is the block itself
      obtain ⟨rfl, -⟩ := Name.asNamespace_eq_some_iff.mp hns
      rw [Name.unanchored_of_not_isAnchored hanchored]
      exact Or.inl (hdeclared ns hblock)
    · exact hsees ns owner hblock hanchored hns

/-- **A definition with a plain name** belongs to the block that is open on its line. -/
theorem Scanner.Origin.owner_eq {file : FileId} {text : Text} {d : Definition} {h : Header}
    (horigin : Origin file text d h) (hplain : Name.isQualified h.name = false) :
    d.owner = (blockAt file text d.location.line).bind Name.asNamespace := by
  have hmake := horigin.make
  rw [Definition.make?_of_not_isQualified hplain] at hmake
  split at hmake
  · exact absurd hmake (by simp)
  · rw [← Option.some.inj hmake]

namespace Catalog

variable {c : Catalog} {file : FileId} {d : Definition} {o : Outline}

theorem visible_of_outline? (ho : c.outline? file = some o) :
    c.visible (some file) d = o.sees d := by
  rw [visible, ho]

theorem mem_definitions_of_outline? (ho : c.outline? file = some o) (hd : d ∈ o.definitions) :
    d ∈ c.definitions :=
  List.mem_flatMap.mpr ⟨o, (c.outlines.mem_values_iff o).mpr ⟨file, ho⟩, hd⟩

/-- **A definition is found under its simple name** if it is visible, or if no definition of this
name is. -/
theorem Coherent.mem_resolve_name_iff (h : c.Coherent) (hd : d ∈ c.definitions)
    (hnamed : d.WellNamed) {origin : Option FileId} :
    d ∈ c.resolve origin d.name ↔ c.visible origin d = true ∨
      ∀ e ∈ c.definitions, e.name = d.name → c.visible origin e = false := by
  rw [h.mem_resolve_simple_iff hnamed.isQualified_name]
  simp [hnamed.name_ne_nil, hd]

/-- **When a file sees its own definitions.**  A definition of a scanned text comes from a header on
its line.  If the name in the header is plain, the definition belongs to the block that is open
there, and the scan declares this block.  Whatever the catalog, the file sees the definition when
the name of the block has no anchor left, or is nothing but an anchor; else it does exactly when it
declares or imports the name without the anchor, or imports the definition.  The simple name leads
to the definition when the file sees it, and also when the file sees none of this name. -/
theorem own_definition_visible_iff (us : List CatalogUpdate) (file : FileId) (text : Text)
    {d : Definition} (hd : d ∈ (scanText file text).definitions) :
    let o := scanText file text
    let c := (replay us).applyText file text
    let block := Scanner.blockAt file text d.location.line
    ∃ h, Scanner.headerAt? text d.location.line = some h ∧ (Name.isQualified h.name = false →
      d.owner = block.bind Name.asNamespace ∧
      (∀ ns, block = some ns → ns ∈ o.namespaces) ∧
      (c.visible (some file) d = true ↔ ∀ ns owner, block = some ns → Name.isAnchored ns = true →
        Name.asNamespace ns = some owner →
          owner ∈ o.namespaces ∨ .member d.qualifiedName ∈ o.imports ∨
            .wildcard owner ∈ o.imports) ∧
      (d ∈ c.resolve (some file) d.name ↔ c.visible (some file) d = true ∨
        ∀ e ∈ c.definitions, e.name = d.name → c.visible (some file) e = false)) := by
  intro o c block
  obtain ⟨h, horigin⟩ := Scanner.exists_origin hd
  refine ⟨h, horigin.header, fun hplain => ?_⟩
  have howner : d.owner = block.bind Name.asNamespace := horigin.owner_eq hplain
  have hdeclared : ∀ ns, block = some ns → ns ∈ o.namespaces := fun ns hns =>
    Scanner.mem_namespaces_of_blockAt hd hns
  have ho : c.outline? file = some o := (outline?_apply ..).trans (if_pos rfl)
  have hc : c.Coherent := (coherent_replay us).apply file o
  refine ⟨howner, hdeclared, ?_, ?_⟩
  · rw [visible_of_outline? ho, Outline.sees_iff_of_block howner hdeclared]
  · exact hc.mem_resolve_name_iff (mem_definitions_of_outline? ho hd)
      (wellNamed_of_mem_scanText hd)

/-- A procedure in a block that is in another block, of which the outer name is anchored. -/
theorem own_definition_visible_iff_nested :
    let text : Text :=
      "namespace eval ::a \x7b\n namespace eval b \x7b\n  proc x \x7b\x7d \x7b\x7d".toList
    let d : Definition := ⟨.proc, ['x'], [], some "a::b".toList, ⟨⟨0⟩, 2, 7⟩, false⟩
    d ∈ (scanText ⟨0⟩ text).definitions ∧ (empty.applyText ⟨0⟩ text).visible (some ⟨0⟩) d = true ∧
      d ∈ (empty.applyText ⟨0⟩ text).resolve (some ⟨0⟩) ['x'] := by
  intro text d
  have hd : d ∈ (scanText ⟨0⟩ text).definitions := by decide +kernel
  have hblock : Scanner.blockAt ⟨0⟩ text 2 = some "a::b".toList := by decide +kernel
  obtain ⟨h, hheader, hsees⟩ := own_definition_visible_iff [] ⟨0⟩ text hd
  have hplain : Name.isQualified h.name = false := by
    obtain rfl : ⟨.proc, ['x'], [], 7⟩ = h := Option.some.inj (Eq.trans (by decide +kernel) hheader)
    rfl
  obtain ⟨-, -, hvisible, hresolve⟩ := hsees hplain
  have hd' := hvisible.mpr fun ns _ hns hanchored => by
    obtain rfl : "a::b".toList = ns := Option.some.inj (hblock.symm.trans hns)
    exact absurd hanchored (by decide)
  exact ⟨hd, hd', hresolve.mpr (Or.inl hd')⟩

/-- **A file does not see every definition with a plain name of its own.**  Two anchors in front of
the name of a block leave one in the namespace that is declared, but none in the owner. -/
theorem not_own_definition_visible :
    let text : Text :=
      "namespace eval ::::a \x7b\n proc x \x7b\x7d \x7b\x7d\n\x7d\nproc x \x7b\x7d \x7b\x7d".toList
    let d : Definition := ⟨.proc, ['x'], [], some ['a'], ⟨⟨0⟩, 1, 6⟩, false⟩
    d ∈ (scanText ⟨0⟩ text).definitions ∧
      Scanner.headerAt? text 1 = some ⟨.proc, ['x'], [], 6⟩ ∧
      ['a'] ∉ (scanText ⟨0⟩ text).namespaces ∧
      (empty.applyText ⟨0⟩ text).visible (some ⟨0⟩) d = false ∧
      d ∉ (empty.applyText ⟨0⟩ text).resolve (some ⟨0⟩) ['x'] := by
  intro text d
  have hd : d ∈ (scanText ⟨0⟩ text).definitions := by decide +kernel
  have hvisible : (empty.applyText ⟨0⟩ text).visible (some ⟨0⟩) d = false := by decide +kernel
  refine ⟨hd, by decide +kernel, by decide +kernel, hvisible, fun hresolve => ?_⟩
  have hd' : d ∈ (empty.applyText ⟨0⟩ text).definitions := by decide +kernel
  have hc : (empty.applyText ⟨0⟩ text).Coherent := coherent_empty.apply ..
  rcases (hc.mem_resolve_name_iff hd' (wellNamed_of_mem_scanText hd)).mp hresolve with h | h
  · exact absurd h (by simp [hvisible])
  · -- the other definition of the name is seen
    have hother := h ⟨.proc, ['x'], [], none, ⟨⟨0⟩, 3, 5⟩, false⟩ (by decide +kernel) rfl
    exact absurd hother (by decide +kernel)

end Catalog

end TclAtlas
