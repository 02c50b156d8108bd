import TclAtlas.Proofs.Catalog.Coherence
import TclAtlas.Proofs.Ordered.Sorting
import TclAtlas.Proofs.Outline.Merging
import TclAtlas.Proofs.Text.ByteOrder
import Mathlib.Data.Prod.Lex

/-!
# Proofs/Catalog/Lookups — a lookup finds what a plain scan of the outlines finds

A lookup reads the slots of a term, sorts them by place and fetches what they hold.  A plain scan
goes through the outlines in order and keeps the symbols that carry the term.  Both meet in the list
of all symbols with their places (`withPlaces`): its places are strictly ascending, so sorting the
slots of a coherent catalog can only give the places of the symbols that carry the term
(`Coherent.sorted_places`), and fetching them gives these symbols (`Coherent.collect_eq`).
-/

namespace TclAtlas

/-! ## Positions in an ordered map -/

namespace OrderedMap

variable {κ : Type u} {ν : Type v} [DecidableEq κ]

/-- **The position of a key** is the one position that holds it. -/
theorem position?_eq_some_iff (m : OrderedMap κ ν) (k : κ) (i : Nat) :
    m.position? k = some i ↔ m.keys[i]? = some k := by
  rw [position?, List.idxOf?_eq_some_iff]
  constructor
  · rintro ⟨hi, hk, -⟩
    exact List.getElem?_eq_some_iff.mpr ⟨hi, by simpa using hk⟩
  · intro h
    obtain ⟨hi, hk⟩ := List.getElem?_eq_some_iff.mp h
    refine ⟨hi, by simpa using hk, fun j hj heq => ?_⟩
    have hji : j = i := (m.nodup.getElem_inj_iff).mp (heq.trans hk.symm)
    omega

/-- **The value in the position of a key** is the value of the key. -/
theorem valueAt?_position {m : OrderedMap κ ν} {k : κ} {i : Nat} (h : m.position? k = some i) :
    m.valueAt? i = m.get? k := by
  obtain ⟨e, he, rfl⟩ : ∃ e, m.entries[i]? = some e ∧ e.1 = k := by
    simpa [keys] using (m.position?_eq_some_iff k i).mp h
  have hget : m.get? e.1 = some e.2 :=
    (m.get?_eq_some_iff e.1 e.2).mpr (List.mem_of_getElem? he)
  rw [hget, valueAt?, values, List.getElem?_map, he]
  rfl

end OrderedMap

/-! ## All symbols with their places -/

section WithPlaces

variable {ω ι : Type} (items : ω → List ι)

/-- **All items with their places**: the position of their owner, then the position among the items
of this owner. -/
def withPlaces (os : List ω) : List ((Nat × Nat) × ι) :=
  os.zipIdx.flatMap fun x => (items x.1).zipIdx.map fun y => ((x.2, y.2), y.1)

theorem mem_withPlaces_iff {os : List ω} {pos i : Nat} {a : ι} :
    ((pos, i), a) ∈ withPlaces items os ↔ ∃ o, os[pos]? = some o ∧ (items o)[i]? = some a := by
  simp only [withPlaces, List.mem_flatMap, List.mem_map, Prod.exists, List.mem_zipIdx_iff_getElem?,
    Prod.mk.injEq]
  constructor
  · rintro ⟨o, _, ho, _, _, ha, ⟨rfl, rfl⟩, rfl⟩
    exact ⟨o, ho, ha⟩
  · rintro ⟨o, ho, ha⟩
    exact ⟨o, pos, ho, a, i, ha, ⟨rfl, rfl⟩, rfl⟩

/-- Without the places, these are the items of one owner after the other. -/
theorem map_snd_withPlaces (os : List ω) :
    (withPlaces items os).map Prod.snd = os.flatMap items := by
  have hitems : ∀ x ∈ os.zipIdx,
      ((items x.1).zipIdx.map fun y => ((x.2, y.2), y.1)).map Prod.snd = items x.1 := by
    intro x _
    rw [List.map_map]
    exact List.zipIdx_map_fst 0 (items x.1)
  calc (withPlaces items os).map Prod.snd
      = os.zipIdx.flatMap fun x => items x.1 := by
        rw [withPlaces, List.map_flatMap, List.flatMap_congr hitems]
    _ = (os.zipIdx.map Prod.fst).flatMap items := (List.flatMap_map ..).symm
    _ = os.flatMap items := by rw [List.zipIdx_map_fst]

/-- The positions in a list ascend. -/
theorem pairwise_zipIdx (os : List ω) : os.zipIdx.Pairwise fun x y => x.2 < y.2 := by
  rw [← List.pairwise_map, List.zipIdx_map_snd]
  exact List.pairwise_lt_range'

/-- **The places ascend strictly.** -/
theorem pairwise_withPlaces (os : List ω) :
    (withPlaces items os).Pairwise fun x y => toLex x.1 < toLex y.1 := by
  refine List.pairwise_flatMap.mpr ⟨fun x _ => ?_, (pairwise_zipIdx os).imp ?_⟩
  · refine List.pairwise_map.mpr ((pairwise_zipIdx (items x.1)).imp ?_)
    exact fun hyz => Prod.Lex.toLex_lt_toLex.mpr (.inr ⟨rfl, hyz⟩)
  · intro x y hxy a ha b hb
    obtain ⟨_, -, rfl⟩ := List.mem_map.mp ha
    obtain ⟨_, -, rfl⟩ := List.mem_map.mp hb
    exact Prod.Lex.toLex_lt_toLex.mpr (.inl hxy)

end WithPlaces

namespace Catalog

/-! ## Sorting the slots of a term -/

theorem placeLe_iff (p q : Nat × Nat) : placeLe p q = true ↔ toLex p ≤ toLex q := by
  simp [placeLe, Prod.Lex.toLex_le_toLex]

/-- The places of the slots of a term, in the order of the table. -/
def places (c : Catalog) (k : Term) : List (Nat × Nat) := (c.table.slots k).filterMap c.place?

theorem place?_eq_some_iff {c : Catalog} {s : Slot} {pos i : Nat} :
    c.place? s = some (pos, i) ↔ c.outlines.keys[pos]? = some s.file ∧ s.index = i := by
  simp [place?, ← OrderedMap.position?_eq_some_iff]

/-- **The places of a term** are those where an outline carries it. -/
theorem Coherent.mem_places_iff {c : Catalog} (h : c.Coherent) (k : Term) (pos i : Nat) :
    (pos, i) ∈ c.places k ↔ ∃ o, c.outlines.values[pos]? = some o ∧ (k, i) ∈ o.terms := by
  simp only [places, List.mem_filterMap, place?_eq_some_iff, h.mem_slots]
  constructor
  · rintro ⟨⟨file, _⟩, ⟨o, ho, hk⟩, hpos, rfl⟩
    have hposition := (OrderedMap.position?_eq_some_iff ..).mpr hpos
    exact ⟨o, (OrderedMap.valueAt?_position hposition).trans ho, hk⟩
  · rintro ⟨o, ho, hk⟩
    obtain ⟨e, he, rfl⟩ : ∃ e, c.outlines.entries[pos]? = some e ∧ e.2 = o := by
      simpa [OrderedMap.values] using ho
    have hget : c.outline? e.1 = some e.2 :=
      (OrderedMap.get?_eq_some_iff ..).mpr (List.mem_of_getElem? he)
    exact ⟨⟨e.1, i⟩, ⟨e.2, hget, hk⟩, by simp [OrderedMap.keys, he], rfl⟩

theorem Coherent.nodup_places {c : Catalog} (h : c.Coherent) (k : Term) : (c.places k).Nodup := by
  refine (h.tidy_table.nodup_bucket k).filterMap ?_
  rintro ⟨f, i⟩ ⟨f', i'⟩ ⟨pos, j⟩ hp hp'
  obtain ⟨hf, hi⟩ := place?_eq_some_iff.mp hp
  obtain ⟨hf', hi'⟩ := place?_eq_some_iff.mp hp'
  obtain rfl : f = f' := Option.some.inj (hf.symm.trans hf')
  obtain rfl : i = i' := hi.trans hi'.symm
  rfl

section Scan

variable {ι α : Type} {c : Catalog} {k : Term} {items : Outline → List ι} {p : ι → Bool}

/-- **Sorted, the places of a term are those of the symbols that carry it**, in the order of all
symbols. -/
theorem Coherent.sorted_places (h : c.Coherent)
    (hcarry : ∀ o i, (k, i) ∈ o.terms ↔ ∃ a, (items o)[i]? = some a ∧ p a = true) :
    (c.places k).mergeSort placeLe =
      ((withPlaces items c.outlines.values).filter (p ·.2)).map Prod.fst := by
  have hstrict : ((withPlaces items c.outlines.values).filter (p ·.2)).Pairwise
      fun x y => toLex x.1 < toLex y.1 := (pairwise_withPlaces items _).filter _
  have hnodup : (((withPlaces items c.outlines.values).filter (p ·.2)).map Prod.fst).Nodup :=
    List.pairwise_map.mpr (hstrict.imp fun hlt heq => hlt.ne (congrArg toLex heq))
  have hmem : ∀ q, q ∈ c.places k ↔
      q ∈ ((withPlaces items c.outlines.values).filter (p ·.2)).map Prod.fst := by
    rintro ⟨pos, i⟩
    simp only [h.mem_places_iff, hcarry, List.mem_map, List.mem_filter, Prod.exists]
    constructor
    · rintro ⟨o, ho, a, ha, hp⟩
      exact ⟨pos, i, a, ⟨(mem_withPlaces_iff items).mpr ⟨o, ho, ha⟩, hp⟩, rfl⟩
    · rintro ⟨_, _, a, ⟨hmem, hp⟩, ⟨rfl, rfl⟩⟩
      obtain ⟨o, ho, ha⟩ := (mem_withPlaces_iff items).mp hmem
      exact ⟨o, ho, a, ha, hp⟩
  have hperm := (List.mergeSort_perm (c.places k) placeLe).trans
    ((List.perm_ext_iff_of_nodup (h.nodup_places k) hnodup).mpr hmem)
  -- two ascending lists with the same members are the same list
  exact hperm.eq_of_pairwise (fun p q _ _ hpq hqp => toLex.injective (le_antisymm hpq hqp))
    (pairwise_mergeSort_of_key placeLe_iff _)
    (List.pairwise_map.mpr (hstrict.imp le_of_lt))

/-- **What a lookup collects is what a plain scan finds**: the symbols of all outlines that carry
the term, in the order of the files and of the symbols in a file, as often as they are there. -/
theorem Coherent.collect_eq {get : Outline → Nat → Option α} {f : ι → α} (h : c.Coherent)
    (hcarry : ∀ o i, (k, i) ∈ o.terms ↔ ∃ a, (items o)[i]? = some a ∧ p a = true)
    (hget : ∀ o i, get o i = (items o)[i]?.map f) :
    c.collect k get = ((c.outlines.values.flatMap items).filter p).map f := by
  have hfetch : ∀ x ∈ (withPlaces items c.outlines.values).filter (p ·.2),
      (c.outlines.valueAt? x.1.1).bind (get · x.1.2) = some (f x.2) := by
    rintro ⟨⟨pos, i⟩, a⟩ hx
    obtain ⟨o, ho, ha⟩ := (mem_withPlaces_iff items).mp (List.mem_filter.mp hx).1
    rw [OrderedMap.valueAt?, ho, Option.bind_some, hget, ha]
    rfl
  calc c.collect k get
      = ((c.places k).mergeSort placeLe).filterMap
          fun q => (c.outlines.valueAt? q.1).bind (get · q.2) := rfl
    _ = ((withPlaces items c.outlines.values).filter (p ·.2)).map fun x => f x.2 := by
        rw [h.sorted_places hcarry, List.filterMap_map, ← List.filterMap_eq_map]
        exact List.filterMap_congr hfetch
    _ = (((withPlaces items c.outlines.values).map Prod.snd).filter p).map f := by
        rw [List.filter_map, List.map_map]
        rfl
    _ = ((c.outlines.values.flatMap items).filter p).map f := by rw [map_snd_withPlaces]

/-- What a lookup of the symbols themselves collects. -/
theorem Coherent.collect_eq_filter {get : Outline → Nat → Option ι} (h : c.Coherent)
    (hcarry : ∀ o i, (k, i) ∈ o.terms ↔ ∃ a, (items o)[i]? = some a ∧ p a = true)
    (hget : ∀ o i, get o i = (items o)[i]?) :
    c.collect k get = (c.outlines.values.flatMap items).filter p := by
  rw [h.collect_eq (f := id) hcarry fun o i => by rw [hget, Option.map_id, id], List.map_id]

end Scan

/-! ## Definitions, bindings and dictionary shapes -/

/-- **All dictionary shapes**, in the order of files and of the names in a file. -/
def dictShapes (c : Catalog) : List DictShape := c.outlines.values.flatMap (·.dicts.values)

/-- **All dictionary shapes with the names they are filed under**, in the same order. -/
def dictEntries (c : Catalog) : List (Text × DictShape) :=
  c.outlines.values.flatMap (·.dicts.entries)

theorem map_snd_dictEntries (c : Catalog) : c.dictEntries.map Prod.snd = c.dictShapes := by
  rw [dictEntries, List.map_flatMap]
  rfl

variable {c : Catalog}

theorem Coherent.definitionsOf_eq (h : c.Coherent) {k : Term} {p : Definition → Bool}
    (hcarry : ∀ (o : Outline) i,
      (k, i) ∈ o.terms ↔ ∃ d, o.definitions[i]? = some d ∧ p d = true) :
    c.definitionsOf k = c.definitions.filter p :=
  h.collect_eq_filter hcarry fun _ _ => rfl

theorem Coherent.withSimpleName_eq (h : c.Coherent) (n : Text) :
    c.withSimpleName n = c.definitions.filter (·.name = n) := by
  refine h.definitionsOf_eq fun o i => ?_
  simp [Outline.mem_terms_iff, Outline.Carries]

theorem Coherent.withQualifiedName_eq (h : c.Coherent) (n : Text) :
    c.withQualifiedName n = c.definitions.filter (·.qualifiedName = n) := by
  refine h.definitionsOf_eq fun o i => ?_
  simp [Outline.mem_terms_iff, Outline.Carries]

theorem Coherent.bindingsOf_eq (h : c.Coherent) (n : Text) :
    c.bindingsOf n = c.bindings.filter (·.name = n) := by
  refine h.collect_eq_filter (fun o i => ?_) fun _ _ => rfl
  simp [Outline.mem_terms_iff, Outline.Carries]

theorem Coherent.dictsNamed_eq (h : c.Coherent) (n : Text) :
    c.dictsNamed n = (c.dictEntries.filter (·.1 = n)).map Prod.snd := by
  refine h.collect_eq (fun o i => ?_) fun o i => ?_
  · simp [Outline.mem_terms_iff, Outline.Carries, OrderedMap.keys]
  · exact List.getElem?_map ..

theorem Coherent.dictsWithKey_eq (h : c.Coherent) (k : Text) :
    c.dictsWithKey k = c.dictShapes.filter (k ∈ ·.keys) := by
  refine h.collect_eq_filter (fun o i => ?_) fun _ _ => rfl
  simp [Outline.mem_terms_iff, Outline.Carries]

end Catalog

/-! ## Dictionary shapes filed under their own names -/

namespace Outline

/-- **Dictionary shapes are filed under their own names.** -/
def OwnNames (o : Outline) : Prop := ∀ n d, (n, d) ∈ o.dicts.entries → d.name = n

theorem OwnNames.add {o : Outline} (h : o.OwnNames) : ∀ f : Finding, (o.add f).OwnNames
  | .definition _ | .binding _ | .declared _ | .imported _ => h
  | .dictKeys name keys parent location => by
    intro n d hd
    rw [← OrderedMap.get?_eq_some_iff, get?_add_dictKeys] at hd
    split at hd
    · next hn =>
      obtain rfl := Option.some.inj hd
      rcases hs : o.dicts.get? name with _ | shape
      · exact hn.symm
      · exact (h name shape ((OrderedMap.get?_eq_some_iff ..).mp hs)).trans hn.symm
    · exact h n d ((OrderedMap.get?_eq_some_iff ..).mp hd)

/-- **A scan files dictionary shapes under their own names.** -/
theorem ownNames_scanText (file : FileId) (text : Text) : (scanText file text).OwnNames :=
  List.foldlRecOn _ _ (fun _ _ h => absurd h (by simp [empty, OrderedMap.empty]))
    fun _ h f _ => h.add f

end Outline

/-- The outlines that an update hands over ready made. -/
def CatalogUpdate.given : CatalogUpdate → List Outline
  | .apply _ o => [o]
  | .ofOutlines os => os.map Prod.snd
  | .applyText _ _ | .remove _ | .ofTexts _ | .clear => []

namespace Catalog

variable {c : Catalog}

section AllOutlines

variable {P : Outline → Prop}

/-- **All outlines of a catalog** have a property. -/
def AllOutlines (P : Outline → Prop) (c : Catalog) : Prop := ∀ file o, c.outline? file = some o → P o

theorem AllOutlines.of_mem_values (h : AllOutlines P c) {o : Outline}
    (ho : o ∈ c.outlines.values) : P o := by
  obtain ⟨file, hfile⟩ := (c.outlines.mem_values_iff o).mp ho
  exact h file o hfile

theorem allOutlines_empty : AllOutlines P empty := fun _ _ h => absurd h (by simp)

theorem AllOutlines.apply (h : AllOutlines P c) (file : FileId) {o : Outline} (ho : P o) :
    AllOutlines P (c.apply file o) := by
  intro f p hp
  rw [outline?_apply] at hp
  split at hp
  · exact Option.some.inj hp ▸ ho
  · exact h f p hp

theorem AllOutlines.remove (h : AllOutlines P c) (file : FileId) :
    AllOutlines P (c.remove file) := by
  intro f p hp
  rw [outline?_remove] at hp
  split at hp
  · exact absurd hp (by simp)
  · exact h f p hp

theorem allOutlines_ofOutlines {os : List (FileId × Outline)} (hos : ∀ e ∈ os, P e.2) :
    AllOutlines P (ofOutlines os) :=
  List.foldlRecOn os _ allOutlines_empty fun _ h e he => h.apply e.1 (hos e he)

variable (hscan : ∀ file text, P (scanText file text))

include hscan

theorem AllOutlines.update (h : AllOutlines P c) :
    ∀ u : CatalogUpdate, (∀ o ∈ u.given, P o) → AllOutlines P (c.update u)
  | .applyText file text, _ => h.apply file (hscan file text)
  | .apply file o, ho => h.apply file (ho o (List.mem_singleton.mpr rfl))
  | .remove file, _ => h.remove file
  | .ofTexts ts, _ => by
    refine allOutlines_ofOutlines fun e he => ?_
    obtain ⟨t, -, rfl⟩ := List.mem_map.mp he
    exact hscan t.1 t.2
  | .ofOutlines os, ho => allOutlines_ofOutlines fun e he => ho e.2 (List.mem_map_of_mem he)
  | .clear, _ => allOutlines_empty

/-- **What scans and the outlines handed over have**, all outlines have after any history. -/
theorem allOutlines_replay {us : List CatalogUpdate} (hus : ∀ u ∈ us, ∀ o ∈ u.given, P o) :
    AllOutlines P (replay us) :=
  List.foldlRecOn us _ allOutlines_empty fun _ h u hu => h.update hscan u (hus u hu)

end AllOutlines

/-- Every outline of a catalog files dictionary shapes under their own names. -/
def OwnNames (c : Catalog) : Prop := ∀ file o, c.outline? file = some o → o.OwnNames

theorem ownNames_replay {us : List CatalogUpdate} (hus : ∀ u ∈ us, ∀ o ∈ u.given, o.OwnNames) :
    (replay us).OwnNames :=
  allOutlines_replay Outline.ownNames_scanText hus

/-- **Filed under their own names, dictionary shapes are found by these.** -/
theorem OwnNames.filter_dictEntries (h : c.OwnNames) (n : Text) :
    (c.dictEntries.filter (·.1 = n)).map Prod.snd = c.dictShapes.filter (·.name = n) := by
  have hname : ∀ e ∈ c.dictEntries, e.2.name = e.1 := by
    intro e he
    obtain ⟨o, ho, heo⟩ := List.mem_flatMap.mp he
    exact AllOutlines.of_mem_values h ho e.1 e.2 heo
  rw [← map_snd_dictEntries, List.filter_map]
  refine congrArg _ (List.filter_congr fun e he => ?_)
  rw [Function.comp_apply, hname e he]

/-! ## Namespaces -/

/-- **The namespaces of a catalog** are those that an outline declares or that own a definition. -/
theorem Coherent.mem_namespaces_iff (h : c.Coherent) (ns : Text) :
    ns ∈ c.namespaces ↔
      (∃ o ∈ c.outlines.values, ns ∈ o.namespaces) ∨ ∃ d ∈ c.definitions, d.owner = some ns := by
  have hdeclared : ns ∈ c.declaring.keys ↔ ∃ o ∈ c.outlines.values, ns ∈ o.namespaces :=
    (h.mem_declaring_keys_iff ns).trans List.mem_flatMap
  have howns : (⟨.owner, ns⟩ : Term) ∈ c.table.keys ↔ ∃ d ∈ c.definitions, d.owner = some ns := by
    rw [h.mem_table_keys_iff]
    simp only [definitions, List.mem_flatMap, Outline.names, List.mem_filterMap]
    constructor
    · rintro ⟨o, ho, d, hd, hns⟩
      exact ⟨d, ⟨o, ho, hd⟩, hns⟩
    · rintro ⟨d, ⟨o, ho, hd⟩, hns⟩
      exact ⟨o, ho, d, hd, hns⟩
  rw [← hdeclared, ← howns]
  simp only [namespaces, List.mem_mergeSort, List.mem_eraseDups, List.mem_append,
    List.mem_filterMap, Option.ite_none_right_eq_some, Option.some.injEq]
  refine or_congr_right ⟨?_, fun hk => ⟨_, hk, rfl, rfl⟩⟩
  rintro ⟨⟨_, _⟩, hk, rfl, rfl⟩
  exact hk

/-- **The namespaces come strictly sorted by their bytes.** -/
theorem pairwise_namespaces (c : Catalog) :
    c.namespaces.Pairwise fun m n => m.bytes < n.bytes := by
  have hsorted : c.namespaces.Pairwise fun m n => m ≤ n :=
    pairwise_mergeSort_of_key (f := id) (fun _ _ => Text.le_eq_true_iff) _
  have hnodup : c.namespaces.Nodup := by
    refine (List.mergeSort_perm _ _).nodup_iff.mpr ?_
    rw [← Distinct.insertAll_nil]
    exact Distinct.nodup_insertAll _ List.nodup_nil
  exact (hsorted.and hnodup).imp fun ⟨hle, hne⟩ => Text.bytes_lt_iff.mpr (lt_of_le_of_ne hle hne)

/-! ## Lookups after any history -/

/-- **Whatever the history, lookups agree with a plain scan of the outlines.**  Definitions and
bindings found by a name are those of the catalog with this name, in the same order and as often;
dictionary shapes found by a name are those filed under it, and found by a key those that hold it,
in the order of the files and of the names in a file.  Scans file a shape under its own name; where
the outlines handed over ready made do so too, the shapes found by a name are those with this name.
The namespaces are, strictly sorted by their bytes, those that an outline declares or that own a
definition. -/
theorem lookups_replay (us : List CatalogUpdate) :
    (∀ n, (replay us).withSimpleName n = (replay us).definitions.filter (·.name = n)) ∧
    (∀ n, (replay us).withQualifiedName n =
      (replay us).definitions.filter (·.qualifiedName = n)) ∧
    (∀ ns, (replay us).ownedBy ns = (replay us).definitions.filter (·.owner = some ns)) ∧
    (∀ n, (replay us).bindingsOf n = (replay us).bindings.filter (·.name = n)) ∧
    (∀ n, (replay us).dictsNamed n =
      ((replay us).dictEntries.filter (·.1 = n)).map Prod.snd) ∧
    ((∀ u ∈ us, ∀ o ∈ u.given, o.OwnNames) →
      ∀ n, (replay us).dictsNamed n = (replay us).dictShapes.filter (·.name = n)) ∧
    (∀ k, (replay us).dictsWithKey k = (replay us).dictShapes.filter (k ∈ ·.keys)) ∧
    (replay us).namespaces.Pairwise (fun m n => m.bytes < n.bytes) ∧
    (∀ ns, ns ∈ (replay us).namespaces ↔
      (∃ o ∈ (replay us).outlines.values, ns ∈ o.namespaces) ∨
        ∃ d ∈ (replay us).definitions, d.owner = some ns) := by
  have h := coherent_replay us
  refine ⟨fun n => h.definitionsOf_eq fun o i => ?_, fun n => h.definitionsOf_eq fun o i => ?_,
    fun ns => h.definitionsOf_eq fun o i => ?_, h.bindingsOf_eq, h.dictsNamed_eq,
    fun hus n => (h.dictsNamed_eq n).trans ((ownNames_replay hus).filter_dictEntries n),
    h.dictsWithKey_eq, pairwise_namespaces _, h.mem_namespaces_iff⟩
  all_goals simp [Outline.mem_terms_iff, Outline.Carries]

/-- A file that came first is found first, also when its outline was replaced after the other. -/
theorem lookups_replay_replaced :
    let shape (key : Text) : DictShape := ⟨['d'], [key], none, ⟨⟨0⟩, 0, 0⟩⟩
    let outline (key : Text) : Outline :=
      { Outline.empty with dicts := OrderedMap.empty.insert ['d'] (shape key) }
    let us : List CatalogUpdate :=
      [.apply ⟨1⟩ (outline ['x']), .apply ⟨2⟩ (outline ['y']), .apply ⟨1⟩ (outline ['z'])]
    (∀ u ∈ us, ∀ o ∈ u.given, o.OwnNames) ∧
      (replay us).dictsNamed ['d'] = [shape ['z'], shape ['y']] := by
  intro shape outline us
  have hus : ∀ u ∈ us, ∀ o ∈ u.given, o.OwnNames := by
    have hown : ∀ key, (outline key).OwnNames := by
      rintro key n d hd
      obtain ⟨rfl, rfl⟩ := Prod.mk.inj (List.mem_singleton.mp hd)
      rfl
    simp [us, CatalogUpdate.given, hown]
  obtain ⟨-, -, -, -, -, hnamed, -⟩ := lookups_replay us
  exact ⟨hus, (hnamed hus ['d']).trans (by decide)⟩

end Catalog

end TclAtlas
