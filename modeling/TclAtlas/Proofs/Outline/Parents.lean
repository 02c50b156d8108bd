import TclAtlas.Proofs.Outline.Merging
import Mathlib.Data.Fintype.Card
import Mathlib.Data.Set.Finite.List
import Mathlib.Logic.Relation

/-!
# Proofs/Outline/Parents — following the parents of dictionaries

The parent of a dictionary is the first one that was found for its name (`Outline.parent?_addAll`).

Parents are names, so that following them may come back to a dictionary already seen.  There are
only so many dictionaries: where each parent is one of them, following parents ends exactly when it
does not come back (`ReachesRoot.not_transGen`, `reachesRoot_of_not_transGen`).
-/

namespace TclAtlas

open Relation

/-- **The nesting that a finding makes**: the name of a dictionary and that of its parent. -/
def Finding.nesting? : Finding → Option (Text × Text)
  | dictKeys name _ parent _ => parent.map (name, ·)
  | _ => none

namespace Outline

variable {o : Outline} {n : Text}

/-- **The parent** of the dictionary of a name, if there is such a dictionary and it has one. -/
def parent? (o : Outline) (n : Text) : Option Text := (o.dicts.get? n).bind DictShape.parent

/-- **A dictionary is a child** of its parent. -/
def ChildOf (o : Outline) (n p : Text) : Prop := o.parent? n = some p

/-- **Following parents ends** at a dictionary that has none. -/
inductive ReachesRoot (o : Outline) : Text → Prop
  | root {n : Text} {d : DictShape} (hd : o.dicts.get? n = some d) (hroot : d.parent = none) :
    ReachesRoot o n
  | up {n p : Text} {d : DictShape} (hd : o.dicts.get? n = some d) (hp : d.parent = some p)
    (hrest : ReachesRoot o p) : ReachesRoot o n

theorem parent?_of_get? {d : DictShape} (h : o.dicts.get? n = some d) : o.parent? n = d.parent := by
  rw [parent?, h, Option.bind_some]

/-! ## The parents that findings give -/

theorem parent?_add (o : Outline) (f : Finding) (n : Text) :
    (o.add f).parent? n = (o.parent? n).or (f.nesting?.toList.lookup n) := by
  rcases f with d | b | ⟨name, keys, parent, location⟩ | ns | i
  · exact (Option.or_none ..).symm
  · exact (Option.or_none ..).symm
  · rw [parent?, get?_add_dictKeys, Finding.nesting?]
    split
    · next hn =>
      subst hn
      rw [Option.bind_some, addKeys, parent?]
      rcases o.dicts.get? n with _ | d <;> rcases parent with _ | p <;> simp
    · next hn =>
      have hother : (n == name) = false := beq_eq_false_iff_ne.mpr hn
      have hlookup : (parent.map (name, ·)).toList.lookup n = none := by
        rcases parent with _ | p <;> simp [List.lookup_cons, hother]
      rw [hlookup, Option.or_none, parent?]
  · exact (Option.or_none ..).symm
  · exact (Option.or_none ..).symm

/-- **A dictionary keeps its parent**, or has the first one found for it. -/
theorem parent?_addAll : ∀ (fs : List Finding) (o : Outline) (n : Text),
    (o.addAll fs).parent? n = (o.parent? n).or ((fs.filterMap Finding.nesting?).lookup n)
  | [], _, _ => (Option.or_none ..).symm
  | f :: fs, o, n => by
    have hrest := parent?_addAll fs (o.add f) n
    rw [parent?_add, Option.or_assoc] at hrest
    have hcons : (f :: fs).filterMap Finding.nesting? =
        f.nesting?.toList ++ fs.filterMap Finding.nesting? := by
      rw [List.filterMap_cons]
      rcases f.nesting? <;> rfl
    rw [hcons, List.lookup_append]
    exact hrest

/-- **A dictionary's parent** is the first one found for it. -/
theorem parent?_ofFindings (fs : List Finding) (n : Text) :
    (ofFindings fs).parent? n = (fs.filterMap Finding.nesting?).lookup n := by
  rw [ofFindings, parent?_addAll]
  rfl

/-! ## Coming back -/

theorem childOf_iff {d : DictShape} {p : Text} (h : o.dicts.get? n = some d) :
    o.ChildOf n p ↔ d.parent = some p := by
  rw [ChildOf, parent?_of_get? h]

/-- **Following parents to the end** does not come back to a dictionary. -/
theorem ReachesRoot.not_transGen (h : o.ReachesRoot n) :
    ∀ m, ReflTransGen o.ChildOf n m → ¬TransGen o.ChildOf m m := by
  induction h with
  | root hd hroot =>
    have hnone : ∀ q, ¬o.ChildOf _ q := fun q hq => by
      rw [childOf_iff hd, hroot] at hq
      exact absurd hq (by simp)
    intro m hm hcycle
    rcases hm.cases_head with rfl | ⟨q, hq, -⟩
    · obtain ⟨q, hq, -⟩ := TransGen.head'_iff.mp hcycle
      exact hnone q hq
    · exact hnone q hq
  | @up n p d hd hp _ ih =>
    have honly : ∀ q, o.ChildOf n q → q = p := fun q hq => by
      rw [childOf_iff hd, hp] at hq
      exact (Option.some.inj hq).symm
    intro m hm hcycle
    rcases hm.cases_head with rfl | ⟨q, hq, hrest⟩
    · -- a cycle through the dictionary goes through its parent
      obtain ⟨q, hq, hback⟩ := TransGen.head'_iff.mp hcycle
      obtain rfl := honly q hq
      exact ih q ReflTransGen.refl (TransGen.tail' hback hq)
    · obtain rfl := honly q hq
      exact ih m hrest hcycle

/-- **Where each parent is a dictionary**, following parents ends unless it comes back. -/
theorem reachesRoot_of_not_transGen (hparents : ∀ n p, o.ChildOf n p → p ∈ o.dicts.keys)
    (hn : n ∈ o.dicts.keys)
    (hcycle : ∀ m, ReflTransGen o.ChildOf n m → ¬TransGen o.ChildOf m m) : o.ReachesRoot n := by
  have hkeys : ∀ m, ReflTransGen o.ChildOf n m → m ∈ o.dicts.keys := by
    intro m hm
    rcases hm.cases_tail with rfl | ⟨c, -, hc⟩
    · exact hn
    · exact hparents c m hc
  -- the ancestors of the dictionary are finitely many, and ordered since none is its own
  let Ancestor := {m // ReflTransGen o.ChildOf n m}
  let above : Ancestor → Ancestor → Prop := fun a b => TransGen o.ChildOf b.1 a.1
  have hfinite : Finite Ancestor := (List.finite_toSet o.dicts.keys).subset hkeys
  have htrans : IsTrans Ancestor above := ⟨fun _ _ _ hab hbc => hbc.trans hab⟩
  have hirrefl : Std.Irrefl above := ⟨fun a => hcycle a.1 a.2⟩
  have hreaches : ∀ a : Ancestor, o.ReachesRoot a.1 := by
    intro a
    induction a using (Finite.wellFounded_of_trans_of_irrefl above).induction with
    | h a ih =>
      obtain ⟨d, hd⟩ := Option.isSome_iff_exists.mp
        ((o.dicts.mem_keys_iff a.1).mp (hkeys a.1 a.2))
      rcases hp : d.parent with _ | p
      · exact .root hd hp
      · have hchild : o.ChildOf a.1 p := (childOf_iff hd).mpr hp
        exact .up hd hp (ih ⟨p, a.2.tail hchild⟩ (TransGen.single hchild))
  exact hreaches ⟨n, ReflTransGen.refl⟩

end Outline

end TclAtlas
