import TclAtlas.Proofs.Ordered.Firsts
import TclAtlas.Proofs.Scan.WellFormed
import TclAtlas.Query.Variables

/-!
# Proofs/Catalog/Dictionaries — from keys to dictionaries and back

One query goes from a dictionary to its keys, another from a key to the dictionaries that hold it.
They go through different tables, but both say of a name and a key that some outline has a shape of
this name with this key: `Coherent.mem_dictKeys_iff` and `Coherent.exists_mem_dictsHolding_iff`.
For the second it matters that scans file a shape under its own name, and for a name that is found
to be asked for again that no scan finds one with a dollar sign in front.
-/

namespace TclAtlas

/-! ## Shapes by name -/

/-- When no two entries share a key, at most one has a given key. -/
theorem Entries.map_snd_filter_key {κ : Type u} {ν : Type v} [DecidableEq κ] (k : κ) :
    ∀ es : List (κ × ν), (es.map Prod.fst).Nodup →
      (es.filter (·.1 = k)).map Prod.snd = (es.lookup k).toList
  | [], _ => rfl
  | e :: es, h => by
    obtain ⟨he, hes⟩ := List.nodup_cons.mp h
    have ih := map_snd_filter_key k es hes
    by_cases hk : k = e.1
    · subst hk
      have hnone : es.lookup e.1 = none :=
        Option.not_isSome_iff_eq_none.mp fun hsome => he ((mem_map_fst_iff e.1 es).mpr hsome)
      simp [lookup_cons, ih, hnone]
    · simp [lookup_cons, ih, hk, Ne.symm hk]

namespace Name

theorem unsubstituted_of_head?_ne {n : Text} (h : n.head? ≠ some '$') : unsubstituted n = n := by
  rw [unsubstituted.eq_def]
  split
  · exact absurd rfl h
  · rfl

end Name

/-- The name of a variable has no dollar sign in front. -/
theorem Text.head?_ne_of_isSymbolName {t : Text} (h : isSymbolName t = true) :
    t.head? ≠ some '$' := by
  intro hdollar
  have hmem : '$' ∈ t := List.mem_of_mem_head? hdollar
  rw [isSymbolName, Bool.and_eq_true, List.all_eq_true] at h
  exact absurd (h.2 '$' hmem) (by decide)

namespace Catalog

variable {c : Catalog} {k n : Text}

/-- **The shapes of a dictionary**: in the order of the files, the one that each file has. -/
theorem Coherent.dictsNamed_eq_filterMap (h : c.Coherent) (n : Text) :
    c.dictsNamed n = c.outlines.values.filterMap (·.dicts.get? n) := by
  have hfile : ∀ o ∈ c.outlines.values,
      (o.dicts.entries.filter (·.1 = n)).map Prod.snd = (o.dicts.get? n).toList := fun o _ =>
    Entries.map_snd_filter_key n o.dicts.entries o.dicts.nodup
  rw [h.dictsNamed_eq, dictEntries, List.filter_flatMap, List.map_flatMap,
    List.flatMap_congr hfile, ← List.filterMap_eq_flatMap_toList]

/-- **The shapes with a key** are those that an outline files under some name. -/
theorem Coherent.mem_dictsWithKey_iff (h : c.Coherent) {d : DictShape} : d ∈ c.dictsWithKey k ↔
    k ∈ d.keys ∧ ∃ o ∈ c.outlines.values, ∃ m, o.dicts.get? m = some d := by
  simp only [h.dictsWithKey_eq, List.mem_filter, decide_eq_true_eq, dictShapes, List.mem_flatMap,
    OrderedMap.mem_values_iff, and_comm]

/-! ## The two queries -/

/-- **The keys of a dictionary** are those that it has in some outline. -/
theorem Coherent.mem_dictKeys_iff (h : c.Coherent) (hn : n.head? ≠ some '$') :
    k ∈ c.dictKeys n ↔ ∃ o ∈ c.outlines.values, o.HasKey n k := by
  rw [dictKeys, List.mem_eraseDups, List.mem_flatMap, Name.unsubstituted_of_head?_ne hn,
    h.dictsNamed_eq_filterMap]
  simp only [List.mem_filterMap, Outline.HasKey]
  constructor
  · rintro ⟨d, ⟨o, ho, hd⟩, hk⟩
    exact ⟨o, ho, d, hd, hk⟩
  · rintro ⟨o, ho, d, hd, hk⟩
    exact ⟨d, ⟨o, ho, hd⟩, hk⟩

theorem mem_dictsHolding_iff {i : DictSummary} : i ∈ c.dictsHolding k ↔
    (∃ d ∈ c.dictsWithKey k, d.name = i.name) ∧ i.parent = c.parentDict i.name ∧
      i.keys = c.dictKeys i.name := by
  simp only [dictsHolding, List.mem_map, List.mem_eraseDups]
  constructor
  · rintro ⟨n, hn, rfl⟩
    exact ⟨hn, rfl, rfl⟩
  · rintro ⟨hn, hparent, hkeys⟩
    exact ⟨i.name, hn, by rw [← hparent, ← hkeys]⟩

/-- **The dictionaries that hold a key** are those that have it in some outline. -/
theorem Coherent.exists_mem_dictsHolding_iff (h : c.Coherent) (hown : c.OwnNames) :
    (∃ i ∈ c.dictsHolding k, i.name = n) ↔ ∃ o ∈ c.outlines.values, o.HasKey n k := by
  have hname : ∀ o ∈ c.outlines.values, ∀ m d, o.dicts.get? m = some d → d.name = m :=
    fun o ho m d hd =>
      AllOutlines.of_mem_values hown ho m d ((OrderedMap.get?_eq_some_iff ..).mp hd)
  constructor
  · rintro ⟨i, hi, rfl⟩
    obtain ⟨⟨d, hd, hdi⟩, -⟩ := mem_dictsHolding_iff.mp hi
    obtain ⟨hk, o, ho, m, hm⟩ := h.mem_dictsWithKey_iff.mp hd
    obtain rfl : i.name = m := hdi.symm.trans (hname o ho m d hm)
    exact ⟨o, ho, d, hm, hk⟩
  · rintro ⟨o, ho, d, hd, hk⟩
    have hfound : d ∈ c.dictsWithKey k := h.mem_dictsWithKey_iff.mpr ⟨hk, o, ho, n, hd⟩
    exact ⟨⟨n, c.parentDict n, c.dictKeys n⟩,
      mem_dictsHolding_iff.mpr ⟨⟨d, hfound, hname o ho n d hd⟩, rfl, rfl⟩, rfl⟩

/-- **In a catalog of scans the queries by name and by key are converse.**  A dictionary is among
those that hold a key exactly when the key is among its keys, and it is there once, with its parent
and all its keys.  The keys of a dictionary are those that it has in any file, each once, in the
order of the files and of the keys in a file.  A dollar sign in front of a name does not matter. -/
theorem dict_queries_converse {us : List CatalogUpdate}
    (hus : ∀ u ∈ us, ∀ o ∈ u.given, o.Scanned) :
    let c := replay us
    (∀ k n, n.head? ≠ some '$' →
      ((∃ i ∈ c.dictsHolding k, i.name = n) ↔ k ∈ c.dictKeys n)) ∧
    (∀ k, ((c.dictsHolding k).map DictSummary.name).Nodup) ∧
    (∀ k, ∀ i ∈ c.dictsHolding k,
      i.keys = c.dictKeys i.name ∧ k ∈ i.keys ∧ i.parent = c.parentDict i.name) ∧
    (∀ n, n.head? ≠ some '$' → (c.dictKeys n).Nodup ∧
      Distinct.Firsts ((c.outlines.values.filterMap (·.dicts.get? n)).flatMap DictShape.keys)
        (c.dictKeys n)) ∧
    ∀ n, n.head? ≠ some '$' →
      c.dictKeys ('$' :: n) = c.dictKeys n ∧ c.parentDict ('$' :: n) = c.parentDict n := by
  intro c
  have h : c.Coherent := coherent_replay us
  have hwf : AllOutlines Outline.WellFormed c := wellFormed_replay hus
  have hconverse : ∀ k n, n.head? ≠ some '$' →
      ((∃ i ∈ c.dictsHolding k, i.name = n) ↔ k ∈ c.dictKeys n) := fun k n hn =>
    (h.exists_mem_dictsHolding_iff fun file o ho => (hwf file o ho).ownNames).trans
      (h.mem_dictKeys_iff hn).symm
  have hdollar : ∀ k, ∀ i ∈ c.dictsHolding k, i.name.head? ≠ some '$' := by
    intro k i hi
    obtain ⟨⟨d, hd, hdi⟩, -⟩ := mem_dictsHolding_iff.mp hi
    obtain ⟨-, o, ho, m, hm⟩ := h.mem_dictsWithKey_iff.mp hd
    have hproper := (hwf.of_mem_values ho).proper_dicts m d hm
    exact hdi ▸ Text.head?_ne_of_isSymbolName hproper.isSymbolName_name
  refine ⟨hconverse, fun k => ?_, fun k i hi => ?_, fun n hn => ?_, fun n hn => ?_⟩
  · have hnames : (c.dictsHolding k).map DictSummary.name =
        ((c.dictsWithKey k).map DictShape.name).eraseDups := by
      rw [dictsHolding, List.map_map]
      exact List.map_id _
    exact hnames ▸ (Distinct.firsts_eraseDups _).nodup
  · obtain ⟨-, hparent, hkeys⟩ := mem_dictsHolding_iff.mp hi
    exact ⟨hkeys, hkeys ▸ (hconverse k i.name (hdollar k i hi)).mp ⟨i, hi, rfl⟩, hparent⟩
  · rw [dictKeys, Name.unsubstituted_of_head?_ne hn, h.dictsNamed_eq_filterMap]
    exact ⟨(Distinct.firsts_eraseDups _).nodup, Distinct.firsts_eraseDups _⟩
  · rw [dictKeys, dictKeys, parentDict, parentDict, Name.unsubstituted_of_head?_ne hn]
    exact ⟨rfl, rfl⟩

/-- A nested dictionary holds the key of its parent, which another file adds a key to before its own
is scanned again. -/
theorem dict_queries_converse_nested :
    let us : List CatalogUpdate :=
      [.applyText ⟨0⟩ "set b [dict create]".toList, .applyText ⟨1⟩ "dict set a m v".toList,
        .apply ⟨0⟩ (scanText ⟨0⟩ "set a [dict create k 1 b [dict create k 2]]".toList)]
    (∀ u ∈ us, ∀ o ∈ u.given, o.Scanned) ∧
      (∃ i ∈ (replay us).dictsHolding ['k'], i.name = ['b'] ∧ i.keys = [['k']]) ∧
      (replay us).dictKeys "$a".toList = [['k'], ['b'], ['m']] := by
  intro us
  have hus : ∀ u ∈ us, ∀ o ∈ u.given, o.Scanned := by
    have hscanned :=
      Outline.scanned_scanText ⟨0⟩ "set a [dict create k 1 b [dict create k 2]]".toList
    simpa [us, CatalogUpdate.given] using hscanned
  obtain ⟨hconverse, -, hitem, -, hdollar⟩ := dict_queries_converse hus
  have hb : (replay us).dictKeys ['b'] = [['k']] := by decide +kernel
  obtain ⟨i, hi, hname⟩ := (hconverse ['k'] ['b'] (by decide)).mpr (by rw [hb]; decide)
  have ha : (replay us).dictKeys ['a'] = [['k'], ['b'], ['m']] := by
    rw [dictKeys, (coherent_replay us).dictsNamed_eq_filterMap]
    decide +kernel
  exact ⟨hus, ⟨i, hi, hname, (hitem ['k'] i hi).1.trans (hname ▸ hb)⟩,
    (hdollar ['a'] (by decide)).1.trans ha⟩

end Catalog

end TclAtlas
