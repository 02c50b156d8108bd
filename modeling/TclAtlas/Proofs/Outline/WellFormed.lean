import TclAtlas.Proofs.Catalog.Lookups
import TclAtlas.Proofs.Name.Parts

/-!
# Proofs/Outline/WellFormed — what findings must satisfy for an outline to be well formed

An outline is **well formed** (`Outline.WellFormed`) when names are proper, nothing is kept twice,
and a dictionary with a parent is a key of it.

A finding **fits** an outline (`Finding.Fits`) when adding it leaves a well-formed outline so
(`Outline.WellFormed.add`).  Most findings fit any outline.  Only the keys of a nested dictionary
ask something of the outline: its parent must have its name among the keys.  Keys are never lost
(`Outline.HasKey.add`), so a parent that has the name when the dictionary is found has it for good.
-/

namespace TclAtlas

/-! ## Well-formed outlines -/

/-- **A proper import** is of a namespace that is not the root, or of a qualified name. -/
def Import.Proper : Import → Prop
  | .wildcard ns => ns ≠ []
  | .member n => Name.isQualified n = true

/-- **A proper dictionary shape**: its name could be a variable, and its keys are identifiers, each
of them once. -/
structure DictShape.Proper (d : DictShape) : Prop where
  isSymbolName_name : Text.isSymbolName d.name = true
  isIdentifier : ∀ k ∈ d.keys, Text.isIdentifier k = true
  nodup_keys : d.keys.Nodup

namespace Outline

/-- **A dictionary has a key** in an outline. -/
def HasKey (o : Outline) (n k : Text) : Prop := ∃ d, o.dicts.get? n = some d ∧ k ∈ d.keys

/-- **What every outline of a scan satisfies.** -/
structure WellFormed (o : Outline) : Prop where
  ne_nil_of_mem_namespaces : ∀ ns ∈ o.namespaces, ns ≠ []
  nodup_namespaces : o.namespaces.Nodup
  proper_imports : ∀ i ∈ o.imports, i.Proper
  nodup_imports : o.imports.Nodup
  wellNamed : ∀ d ∈ o.definitions, d.WellNamed
  ownNames : o.OwnNames
  proper_dicts : ∀ n d, o.dicts.get? n = some d → d.Proper
  keys_ne_nil : ∀ n d, o.dicts.get? n = some d → d.keys ≠ []
  /-- A nested dictionary is a key of the one that it is nested in. -/
  hasKey_parent : ∀ n d p, o.dicts.get? n = some d → d.parent = some p → o.HasKey p n

theorem wellFormed_empty : WellFormed empty where
  ne_nil_of_mem_namespaces _ h := absurd h List.not_mem_nil
  nodup_namespaces := List.nodup_nil
  proper_imports _ h := absurd h List.not_mem_nil
  nodup_imports := List.nodup_nil
  wellNamed _ h := absurd h List.not_mem_nil
  ownNames _ _ h := absurd h List.not_mem_nil
  proper_dicts _ _ h := absurd h (by simp [empty])
  keys_ne_nil _ _ h := absurd h (by simp [empty])
  hasKey_parent _ _ _ h := absurd h (by simp [empty])

end Outline

/-! ## Findings that fit -/

namespace Finding

/-- **What a finding needs of the outline it is added to**, for the outline to stay well formed. -/
def Fits (o : Outline) : Finding → Prop
  | .definition d => d.WellNamed
  | .binding _ => True
  | .dictKeys name keys parent _ =>
    Text.isSymbolName name = true ∧ keys ≠ [] ∧ (∀ k ∈ keys, Text.isIdentifier k = true) ∧
      ∀ p, parent = some p → o.HasKey p name
  | .declared ns => ns ≠ []
  | .imported i => i.Proper

/-- **Findings that fit wherever they are added.** -/
def FitAnywhere (fs : List Finding) : Prop := ∀ f ∈ fs, ∀ o, f.Fits o

theorem fitAnywhere_nil : FitAnywhere [] := fun _ hf => absurd hf List.not_mem_nil

theorem fitAnywhere_singleton {f : Finding} (hf : ∀ o, f.Fits o) : FitAnywhere [f] :=
  fun _ hg => List.mem_singleton.mp hg ▸ hf

end Finding

namespace Outline

variable {o : Outline} {n k : Text}

/-! ## Keys are never lost -/

/-- **A key of a dictionary stays one.** -/
theorem HasKey.add (h : o.HasKey n k) : ∀ f : Finding, (o.add f).HasKey n k
  | .definition _ | .binding _ | .declared _ | .imported _ => h
  | .dictKeys name keys parent location => by
    obtain ⟨d, hd, hk⟩ := h
    by_cases hn : n = name
    · subst hn
      refine ⟨addKeys keys parent d, ?_, Distinct.mem_insertAll.mpr (Or.inr hk)⟩
      rw [get?_add_dictKeys, if_pos rfl, hd, Option.getD_some]
    · exact ⟨d, by rw [get?_add_dictKeys, if_neg hn, hd], hk⟩

theorem HasKey.addAll (h : o.HasKey n k) (fs : List Finding) : (o.addAll fs).HasKey n k :=
  List.foldlRecOn (motive := fun p : Outline => p.HasKey n k) fs _ h fun _ h f _ => h.add f

/-- **The keys found for a dictionary** are keys of it. -/
theorem hasKey_add_dictKeys {keys : List Text} (hk : k ∈ keys) (parent : Option Text)
    (location : Location) : (o.add (.dictKeys n keys parent location)).HasKey n k :=
  ⟨_, by rw [get?_add_dictKeys, if_pos rfl], Distinct.mem_insertAll.mpr (Or.inl hk)⟩

/-! ## Adding findings that fit -/

/-- **More identifiers as keys** leave a shape proper. -/
theorem proper_addKeys {d : DictShape} (hd : d.Proper) {keys : List Text}
    (hkeys : ∀ k ∈ keys, Text.isIdentifier k = true) (parent : Option Text) :
    (addKeys keys parent d).Proper where
  isSymbolName_name := hd.isSymbolName_name
  isIdentifier k hk := (Distinct.mem_insertAll.mp hk).elim (hkeys k) (hd.isIdentifier k)
  nodup_keys := Distinct.nodup_insertAll keys hd.nodup_keys

/-- **Keys that fit** leave an outline well formed. -/
theorem WellFormed.add_dictKeys (h : o.WellFormed) {name : Text} {keys : List Text}
    {parent : Option Text} {location : Location}
    (hf : (Finding.dictKeys name keys parent location).Fits o) :
    (o.add (.dictKeys name keys parent location)).WellFormed := by
  obtain ⟨hname, hne, hkeys, hparent⟩ := hf
  have hbefore : ((o.dicts.get? name).getD ⟨name, [], none, location⟩).Proper := by
    rcases hd : o.dicts.get? name with _ | d
    · exact ⟨hname, fun _ hk => absurd hk List.not_mem_nil, List.nodup_nil⟩
    · exact h.proper_dicts name d hd
  obtain ⟨key, hkey⟩ := List.exists_mem_of_ne_nil keys hne
  refine { h with
    ownNames := h.ownNames.add _
    proper_dicts := fun n d hd => ?_
    keys_ne_nil := fun n d hd => ?_
    hasKey_parent := fun n d p hd hp => ?_ }
  all_goals
    rw [get?_add_dictKeys] at hd
    split at hd
  · exact Option.some.inj hd ▸ proper_addKeys hbefore hkeys parent
  · exact h.proper_dicts n d hd
  · exact Option.some.inj hd ▸ List.ne_nil_of_mem (Distinct.mem_insertAll.mpr (Or.inl hkey))
  · exact h.keys_ne_nil n d hd
  · next hn =>
    -- the first parent sticks, and both the old and the new one have the name as a key
    subst hn
    obtain rfl := Option.some.inj hd
    rcases hold : o.dicts.get? n with _ | old <;> rw [hold] at hp
    · exact (hparent p hp).add _
    · rcases Option.or_eq_some_iff.mp hp with hp | ⟨-, hp⟩
      · exact (h.hasKey_parent n old p hold hp).add _
      · exact (hparent p hp).add _
  · exact (h.hasKey_parent n d p hd hp).add _

/-- **A finding that fits leaves an outline well formed.** -/
theorem WellFormed.add (h : o.WellFormed) : ∀ {f : Finding}, f.Fits o → (o.add f).WellFormed
  | .definition _, hd => { h with
      wellNamed := fun e he => (List.mem_append.mp he).elim (h.wellNamed e) fun he =>
        List.mem_singleton.mp he ▸ hd }
  | .binding _, _ => { h with }
  | .dictKeys .., hf => h.add_dictKeys hf
  | .declared ns, hns => { h with
      ne_nil_of_mem_namespaces := fun m hm => (Distinct.mem_insertLast.mp hm).elim
        (fun heq => heq ▸ hns) (h.ne_nil_of_mem_namespaces m)
      nodup_namespaces := Distinct.nodup_insertLast ns h.nodup_namespaces }
  | .imported i, hi => { h with
      proper_imports := fun j hj => (Distinct.mem_insertLast.mp hj).elim
        (fun heq => heq ▸ hi) (h.proper_imports j)
      nodup_imports := Distinct.nodup_insertLast i h.nodup_imports }

theorem WellFormed.addAll (h : o.WellFormed) {fs : List Finding} (hfs : Finding.FitAnywhere fs) :
    (o.addAll fs).WellFormed :=
  List.foldlRecOn fs _ h fun p hp f hf => hp.add (hfs f hf p)

end Outline

end TclAtlas
