import TclAtlas.Catalog
import Mathlib.Data.List.Dedup

/-!
# Proofs/Catalog/Names — the names an outline carries, read off the outline alone

`Outline.terms` numbers the symbols of an outline and lists their names for the tables.  Here the
same names are said without any list: `Carries` looks at the symbol in one position.  The two agree
(`mem_terms_iff`).  `Outline.names` forgets the positions, and `CatalogSizes.recount` counts
distinct names over several outlines — what the sizes of a catalog have to come to.
-/

namespace TclAtlas

namespace Outline

/-- **The symbol in a position carries a name** under an aspect. -/
def Carries (o : Outline) (n : Text) (i : Nat) : Aspect → Prop
  | .simpleName => ∃ d, o.definitions[i]? = some d ∧ d.name = n
  | .qualifiedName => ∃ d, o.definitions[i]? = some d ∧ d.qualifiedName = n
  | .owner => ∃ d, o.definitions[i]? = some d ∧ d.owner = some n
  | .boundVariable => ∃ b, o.bindings[i]? = some b ∧ b.name = n
  | .dict => o.dicts.keys[i]? = some n
  | .dictKey => ∃ d, o.dicts.values[i]? = some d ∧ n ∈ d.keys

/-- The names that symbols carry under an aspect, with repetitions. -/
def names (o : Outline) : Aspect → List Text
  | .simpleName => o.definitions.map Definition.name
  | .qualifiedName => o.definitions.map Definition.qualifiedName
  | .owner => o.definitions.filterMap Definition.owner
  | .boundVariable => o.bindings.map Binding.name
  | .dict => o.dicts.keys
  | .dictKey => o.dicts.values.flatMap DictShape.keys

/-! ## The terms of an outline are the names it carries -/

theorem mem_named_iff (o : Outline) (a : Aspect) (n : Text) (i : Nat) :
    (n, i) ∈ o.named a ↔ o.Carries n i a := by
  cases a with
  | simpleName => simp [named, Carries, List.mem_zipIdx_iff_getElem?]
  | qualifiedName => simp [named, Carries, List.mem_zipIdx_iff_getElem?]
  | owner =>
    simp only [named, List.mem_filterMap, Prod.exists, List.mem_zipIdx_iff_getElem?, Carries]
    constructor
    · rintro ⟨d, j, hd, hn⟩
      obtain ⟨ns, hns, heq⟩ := Option.map_eq_some_iff.mp hn
      obtain ⟨rfl, rfl⟩ : ns = n ∧ j = i := by simpa using heq
      exact ⟨d, hd, hns⟩
    · rintro ⟨d, hd, hn⟩
      exact ⟨d, i, hd, by rw [hn]; rfl⟩
  | boundVariable => simp [named, Carries, List.mem_zipIdx_iff_getElem?]
  | dict => simp [named, Carries, List.mem_zipIdx_iff_getElem?]
  | dictKey =>
    simp only [named, List.mem_flatMap, Prod.exists, List.mem_zipIdx_iff_getElem?, Carries]
    constructor
    · rintro ⟨d, j, hd, hn⟩
      obtain ⟨k, hk, heq⟩ := List.mem_map.mp hn
      obtain ⟨rfl, rfl⟩ : k = n ∧ j = i := by simpa using heq
      exact ⟨d, hd, hk⟩
    · rintro ⟨d, hd, hn⟩
      exact ⟨d, i, hd, List.mem_map.mpr ⟨n, hn, rfl⟩⟩

/-- **A term is listed with a position** exactly when the symbol there carries its name. -/
theorem mem_terms_iff (o : Outline) (a : Aspect) (n : Text) (i : Nat) :
    ((⟨a, n⟩ : Term), i) ∈ o.terms ↔ o.Carries n i a := by
  rw [← mem_named_iff]
  simp only [terms, List.mem_flatMap, List.mem_map, Prod.exists, Prod.mk.injEq, Term.mk.injEq]
  constructor
  · rintro ⟨b, -, m, j, hm, ⟨rfl, rfl⟩, rfl⟩
    exact hm
  · intro h
    exact ⟨a, by cases a <;> simp, n, i, h, ⟨rfl, rfl⟩, rfl⟩

/-- A member with a property is a member in some position. -/
theorem exists_mem_iff_getElem? {α : Type u} {l : List α} {p : α → Prop} :
    (∃ a ∈ l, p a) ↔ ∃ (i : Nat) (a : α), l[i]? = some a ∧ p a := by
  constructor
  · rintro ⟨a, ha, hp⟩
    obtain ⟨i, hi⟩ := List.mem_iff_getElem?.mp ha
    exact ⟨i, a, hi, hp⟩
  · rintro ⟨i, a, hi, hp⟩
    exact ⟨a, List.mem_of_getElem? hi, hp⟩

/-- A name is one of the names exactly when some position carries it. -/
theorem mem_names_iff (o : Outline) (a : Aspect) (n : Text) :
    n ∈ o.names a ↔ ∃ i, o.Carries n i a := by
  cases a with
  | simpleName | qualifiedName | boundVariable =>
    rw [names, List.mem_map]
    exact exists_mem_iff_getElem?
  | owner =>
    rw [names, List.mem_filterMap]
    exact exists_mem_iff_getElem?
  | dict => exact List.mem_iff_getElem?
  | dictKey =>
    rw [names, List.mem_flatMap]
    exact exists_mem_iff_getElem?

end Outline

/-- **The sizes of several outlines**, counted from the outlines alone: files and definitions with
repetitions, names without. -/
def CatalogSizes.recount (os : List Outline) : CatalogSizes where
  files := os.length
  definitions := (os.flatMap Outline.definitions).length
  simpleNames := (os.flatMap (·.names .simpleName)).dedup.length
  qualifiedNames := (os.flatMap (·.names .qualifiedName)).dedup.length
  namespaces := (os.flatMap Outline.namespaces).dedup.length
  boundVariables := (os.flatMap (·.names .boundVariable)).dedup.length
  dicts := (os.flatMap (·.names .dict)).dedup.length
  dictKeys := (os.flatMap (·.names .dictKey)).dedup.length

end TclAtlas
