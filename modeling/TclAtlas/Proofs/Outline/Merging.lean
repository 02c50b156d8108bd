import TclAtlas.Outline

/-!
# Proofs/Outline/Merging — what findings add up to

The definitions of an outline are those found, in order (`Outline.definitions_ofFindings`), so are
its bindings (`Outline.bindings_ofFindings`), and its namespaces are those of the blocks found, each
once (`Outline.namespaces_ofFindings`).

Two outlines are **merged** by listing the symbols of the second after those of the first: all of
its definitions and bindings, but only the namespaces and imports that are new, and one shape for
each dictionary name, which joins the two shapes where both outlines have one.

Merging is what adding findings comes to: the outline of findings one after the other is the merge
of their outlines (`Outline.ofFindings_append`).
-/

namespace TclAtlas

/-! ## Lists without repetition -/

namespace Distinct

variable {α : Type u} [DecidableEq α]

/-- **A list followed by the members of another** that it lacks. -/
def union (l m : List α) : List α := l ++ m.filter (· ∉ l)

@[simp] theorem union_nil (l : List α) : union l [] = l := List.append_nil l

theorem nodup_union {l m : List α} (hl : l.Nodup) (hm : m.Nodup) : (union l m).Nodup := by
  refine List.nodup_append.mpr ⟨hl, hm.filter _, ?_⟩
  rintro a ha b hb rfl
  exact absurd ha (by simpa using (List.mem_filter.mp hb).2)

/-- **Adding a last member** to a union adds it to the second list. -/
theorem insertLast_union (a : α) (l m : List α) :
    insertLast a (union l m) = union l (insertLast a m) := by
  by_cases hm : a ∈ m
  · have hu : a ∈ union l m := by
      by_cases hl : a ∈ l <;> simp [union, hl, hm]
    rw [insertLast, insertLast, if_pos hu, if_pos hm]
  · by_cases hl : a ∈ l
    · simp [insertLast, hm, union, hl]
    · simp [insertLast, hm, union, hl]

theorem insertAll_union (as l m : List α) :
    insertAll as (union l m) = union l (insertAll as m) := by
  induction as generalizing m with
  | nil => rfl
  | cons a as ih => rw [insertAll, List.foldl_cons, insertLast_union, ← insertAll, ih]; rfl

/-- **Adding several last members** adds those that are missing, each once, in their order. -/
theorem insertAll_eq_append [BEq α] [LawfulBEq α] (as : List α) :
    ∀ l : List α, insertAll as l = l ++ (as.filter (· ∉ l)).eraseDups := by
  induction as with
  | nil => simp [insertAll]
  | cons a as ih =>
    intro l
    rw [insertAll, List.foldl_cons, ← insertAll, ih]
    by_cases ha : a ∈ l
    · simp [insertLast, ha]
    · have hfilter : as.filter (· ∉ l ++ [a]) = (as.filter (· ∉ l)).filter (fun b => !b == a) := by
        rw [List.filter_filter]
        refine List.filter_congr fun b _ => ?_
        by_cases hb : b = a <;> simp [hb, ha]
      rw [insertLast, if_neg ha, hfilter, List.filter_cons_of_pos (by simpa using ha),
        List.eraseDups_cons]
      simp

theorem insertAll_nil [BEq α] [LawfulBEq α] (as : List α) : insertAll as [] = as.eraseDups := by
  rw [insertAll_eq_append, List.filter_eq_self.mpr (by simp), List.nil_append]

/-- Adding several last members is the union with them, each taken once. -/
theorem insertAll_eq_union (as l : List α) : insertAll as l = union l (insertAll as []) := by
  rw [← insertAll_union, union_nil]

end Distinct

/-! ## Ordered maps -/

theorem Entries.lookup_map_key {κ : Type u} {ν : Type v} [DecidableEq κ] (g : κ → ν → ν) (k : κ) :
    ∀ es : List (κ × ν), (es.map fun e => (e.1, g e.1 e.2)).lookup k = (es.lookup k).map (g k)
  | [] => rfl
  | e :: es => by
    rw [List.map_cons, lookup_cons, lookup_cons, lookup_map_key g k es]
    by_cases hk : k = e.1 <;> simp [hk]

namespace OrderedMap

variable {κ : Type u} {ν : Type v} [DecidableEq κ]

theorem entries_map_some (m : OrderedMap κ ν) :
    m.entries.map (Prod.map id some) = m.keys.map fun k => (k, m.get? k) := by
  rw [keys, List.map_map]
  refine List.map_congr_left fun e he => ?_
  have hvalue : m.get? e.1 = some e.2 := (m.get?_eq_some_iff e.1 e.2).mpr he
  rw [Function.comp_apply, hvalue]
  rfl

/-- **Maps with the same keys in the same order and the same values are equal.** -/
theorem ext_get? {m n : OrderedMap κ ν} (hkeys : m.keys = n.keys)
    (h : ∀ k, m.get? k = n.get? k) : m = n := by
  have hentries : m.entries.map (Prod.map id some) = n.entries.map (Prod.map id some) := by
    rw [entries_map_some, entries_map_some, hkeys]
    exact List.map_congr_left fun k _ => by rw [h k]
  refine ext ((List.map_inj_right fun e e' he => ?_).mp hentries)
  obtain ⟨hk, hv⟩ := Prod.mk.inj he
  exact Prod.ext hk (Option.some.inj hv)

/-- **Two maps in one**: the entries of the first, with the values of the second joined to them,
then the entries of the second under other keys. -/
def unionWith (join : ν → ν → ν) (m n : OrderedMap κ ν) : OrderedMap κ ν where
  entries := m.entries.map (fun e => (e.1, (n.get? e.1).elim e.2 (join e.2))) ++
    n.entries.filter (·.1 ∉ m.keys)
  nodup := by
    have hkeys := Distinct.nodup_union m.nodup n.nodup
    rw [Distinct.union, List.filter_map] at hkeys
    rwa [List.map_append, List.map_map]

theorem keys_unionWith (join : ν → ν → ν) (m n : OrderedMap κ ν) :
    (unionWith join m n).keys = Distinct.union m.keys n.keys := by
  simp [unionWith, keys, Distinct.union, List.filter_map, Function.comp_def]

/-- **A key has the joined value**, or the one value that there is. -/
theorem get?_unionWith (join : ν → ν → ν) (m n : OrderedMap κ ν) (k : κ) :
    (unionWith join m n).get? k =
      match m.get? k with
      | some v => some ((n.get? k).elim v (join v))
      | none => n.get? k := by
  have hsecond : (n.entries.filter (·.1 ∉ m.keys)).lookup k =
      if k ∉ m.keys then n.get? k else none := by
    refine (Entries.lookup_filter (fun k => decide (k ∉ m.keys)) k n.entries).trans ?_
    simp [get?]
  have hfirst := Entries.lookup_map_key (fun k v => (n.get? k).elim v (join v)) k m.entries
  rw [get?, unionWith, List.lookup_append, hsecond, hfirst, ← get?]
  rcases hm : m.get? k with _ | v
  · simp [mem_keys_iff, hm]
  · simp

theorem unionWith_empty (join : ν → ν → ν) (m : OrderedMap κ ν) : unionWith join m empty = m := by
  refine ext_get? (by simp [keys_unionWith]) fun k => ?_
  rw [get?_unionWith, get?_empty]
  rcases m.get? k <;> rfl

end OrderedMap

/-! ## Definitions, namespaces and shapes -/

namespace Finding

/-- The definition that a finding is. -/
def definition? : Finding → Option Definition
  | definition d => some d
  | _ => none

/-- The binding that a finding is. -/
def binding? : Finding → Option Binding
  | binding b => some b
  | _ => none

/-- The namespace of the block that a finding is. -/
def declared? : Finding → Option Text
  | declared ns => some ns
  | _ => none

end Finding

namespace Outline

theorem definitions_addAll : ∀ (fs : List Finding) (o : Outline),
    (o.addAll fs).definitions = o.definitions ++ fs.filterMap Finding.definition?
  | [], o => by simp
  | f :: fs, o => by
    rw [addAll, List.foldl_cons, ← addAll, definitions_addAll fs]
    cases f <;> simp [add, Finding.definition?, List.filterMap_cons]

/-- **The definitions of an outline** are those found, in order. -/
theorem definitions_ofFindings (fs : List Finding) :
    (ofFindings fs).definitions = fs.filterMap Finding.definition? := definitions_addAll fs .empty

theorem bindings_addAll : ∀ (fs : List Finding) (o : Outline),
    (o.addAll fs).bindings = o.bindings ++ fs.filterMap Finding.binding?
  | [], o => by simp
  | f :: fs, o => by
    rw [addAll, List.foldl_cons, ← addAll, bindings_addAll fs]
    cases f <;> simp [add, Finding.binding?, List.filterMap_cons]

/-- **The bindings of an outline** are those found, in order. -/
theorem bindings_ofFindings (fs : List Finding) :
    (ofFindings fs).bindings = fs.filterMap Finding.binding? := bindings_addAll fs .empty

theorem namespaces_addAll : ∀ (fs : List Finding) (o : Outline),
    (o.addAll fs).namespaces = Distinct.insertAll (fs.filterMap Finding.declared?) o.namespaces
  | [], _ => rfl
  | f :: fs, o => by
    rw [addAll, List.foldl_cons, ← addAll, namespaces_addAll fs]
    cases f <;> rfl

/-- **The namespaces of an outline** are those of the blocks found, in the order first found. -/
theorem namespaces_ofFindings (fs : List Finding) :
    (ofFindings fs).namespaces = (fs.filterMap Finding.declared?).eraseDups := by
  rw [ofFindings, namespaces_addAll]
  exact Distinct.insertAll_nil (fs.filterMap Finding.declared?)

/-- **The shapes after keys are found**: only the dictionary that they belong to has another. -/
theorem get?_add_dictKeys (o : Outline) (n name : Text) (keys : List Text) (parent : Option Text)
    (location : Location) : (o.add (.dictKeys name keys parent location)).dicts.get? n =
      if n = name then
        some (addKeys keys parent ((o.dicts.get? name).getD ⟨name, [], none, location⟩))
      else o.dicts.get? n :=
  OrderedMap.get?_insert ..

/-- **A shape keeps the place** it had, or else has the place where its keys were first found. -/
theorem location_of_get?_addAll {n : Text} {d : DictShape} : ∀ {fs : List Finding} {o : Outline},
    (o.addAll fs).dicts.get? n = some d →
      (∃ e, o.dicts.get? n = some e ∧ e.location = d.location) ∨
        ∃ keys parent, .dictKeys n keys parent d.location ∈ fs
  | [], _, h => Or.inl ⟨d, h, rfl⟩
  | f :: fs, o, h => by
    have hrest : ((o.add f).addAll fs).dicts.get? n = some d := h
    rcases location_of_get?_addAll hrest with ⟨e, he, hlocation⟩ | hlater
    · rcases f with d' | b | ⟨name, keys, parent, location⟩ | ns | i
      · exact Or.inl ⟨e, he, hlocation⟩
      · exact Or.inl ⟨e, he, hlocation⟩
      · rw [get?_add_dictKeys] at he
        split at he
        · next hn =>
          subst hn
          obtain rfl := Option.some.inj he
          rcases hold : o.dicts.get? n with _ | old <;> rw [hold] at hlocation
          · obtain rfl : location = d.location := hlocation
            exact Or.inr ⟨keys, parent, List.mem_cons_self⟩
          · exact Or.inl ⟨old, rfl, hlocation⟩
        · exact Or.inl ⟨e, he, hlocation⟩
      · exact Or.inl ⟨e, he, hlocation⟩
      · exact Or.inl ⟨e, he, hlocation⟩
    · obtain ⟨keys, parent, hmem⟩ := hlater
      exact Or.inr ⟨keys, parent, List.mem_cons_of_mem f hmem⟩

/-- **A dictionary shape has the place** of keys that were found for it. -/
theorem exists_mem_of_get?_ofFindings {n : Text} {d : DictShape} {fs : List Finding}
    (h : (ofFindings fs).dicts.get? n = some d) :
    ∃ keys parent, .dictKeys n keys parent d.location ∈ fs :=
  (location_of_get?_addAll h).resolve_left fun ⟨_, he, _⟩ => absurd he (by simp [empty])

end Outline

/-! ## The findings of a literal -/

namespace Finding

theorem exists_of_mem_ofKeys {location : Location} {name : Text} {parent : Option Text}
    {entries : List DictEntry} {f : Finding} (h : f ∈ ofKeys location name parent entries) :
    ∃ n keys p, f = .dictKeys n keys p location := by
  rw [ofKeys] at h
  split at h
  · exact absurd h List.not_mem_nil
  · exact ⟨_, _, _, List.mem_singleton.mp h⟩

mutual

theorem exists_of_mem_ofValue {location : Location} {f : Finding} : ∀ {name : Text} {e : DictEntry},
    f ∈ ofValue location name e → ∃ n keys p, f = .dictKeys n keys p location
  | _, .plain _ _, h => absurd h List.not_mem_nil
  | _, .nested k _ inner, h => by
    rw [ofValue, List.mem_append] at h
    exact h.elim exists_of_mem_ofKeys exists_of_mem_ofValues

theorem exists_of_mem_ofValues {location : Location} {f : Finding} :
    ∀ {name : Text} {es : List DictEntry},
      f ∈ ofValues location name es → ∃ n keys p, f = .dictKeys n keys p location
  | _, [], h => absurd h List.not_mem_nil
  | _, e :: es, h => by
    rw [ofValues, List.mem_append] at h
    exact h.elim exists_of_mem_ofValue exists_of_mem_ofValues

end

/-- **A literal makes findings of keys only**, all of them at its place. -/
theorem exists_of_mem_ofDict {location : Location} {name : Text} {entries : List DictEntry}
    {f : Finding} (h : f ∈ ofDict location name entries) :
    ∃ n keys p, f = .dictKeys n keys p location := by
  rw [ofDict, List.mem_append] at h
  exact h.elim exists_of_mem_ofKeys exists_of_mem_ofValues

end Finding

/-! ## Outlines -/

/-- **A dictionary shape joined with one found later**: the keys of both, the first parent that is
set, the first place. -/
def DictShape.join (d e : DictShape) : DictShape where
  name := d.name
  keys := Distinct.union d.keys e.keys
  parent := d.parent.or e.parent
  location := d.location

namespace Outline

/-- **An outline merged with one found later.** -/
def merge (o p : Outline) : Outline where
  definitions := o.definitions ++ p.definitions
  bindings := o.bindings ++ p.bindings
  dicts := o.dicts.unionWith DictShape.join p.dicts
  namespaces := Distinct.union o.namespaces p.namespaces
  imports := Distinct.union o.imports p.imports

theorem merge_empty (o : Outline) : o.merge empty = o := by
  have hdicts := OrderedMap.unionWith_empty DictShape.join o.dicts
  simp [merge, empty, hdicts]

/-- More keys for a joined shape are more keys for the later one. -/
theorem addKeys_join (keys : List Text) (parent : Option Text) (d e : DictShape) :
    addKeys keys parent (d.join e) = d.join (addKeys keys parent e) := by
  simp only [addKeys, DictShape.join, Distinct.insertAll_union, Option.or_assoc]

/-- A later shape that starts with some keys joins just these. -/
theorem join_addKeys_nil (keys : List Text) (parent : Option Text) (d : DictShape) (name : Text)
    (location : Location) : d.join (addKeys keys parent ⟨name, [], none, location⟩) =
      addKeys keys parent d := by
  simp [addKeys, DictShape.join, Distinct.insertAll_eq_union keys d.keys]

/-- **Adding a finding to a merge** adds it to the later outline. -/
theorem add_merge (o p : Outline) (f : Finding) : (o.merge p).add f = o.merge (p.add f) := by
  rcases f with d | b | ⟨name, keys, parent, location⟩ | ns | i
  · simp [add, merge]
  · simp [add, merge]
  · have hdicts : ((o.merge p).add (.dictKeys name keys parent location)).dicts =
        (o.merge (p.add (.dictKeys name keys parent location))).dicts := by
      refine OrderedMap.ext_get? ?_ fun k => ?_
      · simp only [add, merge, OrderedMap.keys_insert, OrderedMap.keys_unionWith,
          Distinct.insertLast_union]
      · simp only [add, merge, OrderedMap.get?_insert, OrderedMap.get?_unionWith]
        by_cases hk : k = name
        · subst hk
          rcases o.dicts.get? k with _ | d <;> rcases p.dicts.get? k with _ | e <;>
            simp [addKeys_join, join_addKeys_nil]
        · simp [hk]
    simpa [add, merge] using hdicts
  · simp [add, merge, Distinct.insertLast_union]
  · simp [add, merge, Distinct.insertLast_union]

theorem addAll_merge (o : Outline) : ∀ (fs : List Finding) (p : Outline),
    (o.merge p).addAll fs = o.merge (p.addAll fs)
  | [], _ => rfl
  | f :: fs, p => by
    have ih := addAll_merge o fs (p.add f)
    rwa [← add_merge] at ih

/-- **The outline of findings one after the other** is the merge of their outlines. -/
theorem ofFindings_append (fs gs : List Finding) :
    ofFindings (fs ++ gs) = (ofFindings fs).merge (ofFindings gs) := by
  have h := addAll_merge (ofFindings fs) gs empty
  rwa [merge_empty, ofFindings, ← addAll_append] at h

end Outline

end TclAtlas
