import TclAtlas.Workspace.FileTree
import Mathlib.Logic.Basic

/-!
# Proofs/Workspace/Reordering — directories listed in another order

A directory lists its entries in some order, and each directory inside it does too.  Trees in which
only these orders differ (`Listing.Reordered`) cannot be told apart by following a path
(`FileTree.Reordered.find_cases`): names are distinct, so whichever entry of a name comes first is
the only one.
-/

namespace TclAtlas

namespace Listing

/-- **Listings that differ in the order of entries** only, in the directory itself or in those
below it. -/
inductive Reordered : Listing → Listing → Prop
  | nil : Reordered nil nil
  | leaf (n : Bytes) (a : Leaf) {rest rest' : Listing} (hrest : Reordered rest rest') :
    Reordered (leaf n a rest) (leaf n a rest')
  | folder (n : Bytes) (listable : Bool) {inside inside' rest rest' : Listing}
    (hinside : Reordered inside inside') (hrest : Reordered rest rest') :
    Reordered (folder n listable inside rest) (folder n listable inside' rest')
  | swap (n m : Bytes) (a b : Node) (rest : Listing) :
    Reordered (entry n a (entry m b rest)) (entry m b (entry n a rest))
  | trans {l₁ l₂ l₃ : Listing} (h₁ : Reordered l₁ l₂) (h₂ : Reordered l₂ l₃) : Reordered l₁ l₃

theorem Reordered.refl : ∀ l : Listing, l.Reordered l
  | .nil => .nil
  | .leaf n a rest => .leaf n a (refl rest)
  | .folder n listable inside rest => .folder n listable (refl inside) (refl rest)

end Listing

/-- **Nodes that differ in the order of entries** only. -/
inductive Node.Reordered : Node → Node → Prop
  | leaf (a : Leaf) : Reordered (.leaf a) (.leaf a)
  | folder (listable : Bool) {l l' : Listing} (h : l.Reordered l') :
    Reordered (.folder listable l) (.folder listable l')

namespace Node.Reordered

theorem refl : ∀ a : Node, a.Reordered a
  | .leaf a => .leaf a
  | .folder listable l => .folder listable (.refl l)

theorem trans {a b c : Node} : a.Reordered b → b.Reordered c → a.Reordered c
  | .leaf a, .leaf _ => .leaf a
  | .folder listable h, .folder _ h' => .folder listable (h.trans h')

theorem rel_trans {x y z : Option Node} :
    Option.Rel Reordered x y → Option.Rel Reordered y z → Option.Rel Reordered x z
  | .none, .none => .none
  | .some h, .some h' => .some (h.trans h')

end Node.Reordered

namespace Listing.Reordered

variable {l l' : Listing}

/-! ## What stays -/

theorem names_perm (h : l.Reordered l') : l.names.Perm l'.names := by
  induction h with
  | nil => exact .nil
  | leaf n a _ ih => exact ih.cons n
  | folder n _ _ _ _ ih => exact ih.cons n
  | swap n m a b rest =>
    simp only [names_entry]
    exact .swap m n rest.names
  | trans _ _ ih₁ ih₂ => exact ih₁.trans ih₂

theorem wellFormed (h : l.Reordered l') (hl : l.WellFormed) : l'.WellFormed := by
  induction h with
  | nil => exact hl
  | leaf n a hrest ih =>
    exact ⟨hl.1, fun hn => hl.2.1 (hrest.names_perm.mem_iff.mpr hn), ih hl.2.2⟩
  | folder n listable _ hrest ihinside ihrest =>
    exact ⟨hl.1, fun hn => hl.2.1 (hrest.names_perm.mem_iff.mpr hn), ihinside hl.2.2.1,
      ihrest hl.2.2.2⟩
  | swap n m a b rest =>
    simp only [wellFormed_entry_iff, names_entry, List.mem_cons, not_or] at hl ⊢
    obtain ⟨hn, ⟨hne, hnrest⟩, ha, hm, hmrest, hb, hrest⟩ := hl
    exact ⟨hm, ⟨Ne.symm hne, hmrest⟩, hb, hn, hnrest, ha, hrest⟩
  | trans _ _ ih₁ ih₂ => exact ih₂ (ih₁ hl)

/-- **The entry of a name** is found in whatever order. -/
theorem rel_find? (h : l.Reordered l') (hl : l.WellFormed) (k : Bytes) :
    Option.Rel Node.Reordered (l.find? k) (l'.find? k) := by
  induction h with
  | nil => exact .none
  | leaf n a _ ih =>
    rw [find?, find?]
    split
    · exact .some (.leaf a)
    · exact ih hl.2.2
  | folder n listable hinside _ _ ih =>
    rw [find?, find?]
    split
    · exact .some (.folder listable hinside)
    · exact ih hl.2.2.2
  | swap n m a b rest =>
    have hne : n ≠ m := by
      have hn := (wellFormed_entry_iff.mp hl).2.1
      rw [names_entry] at hn
      exact List.ne_of_not_mem_cons hn
    have hsame : (entry n a (entry m b rest)).find? k = (entry m b (entry n a rest)).find? k := by
      simp only [find?_entry]
      rcases eq_or_ne n k with rfl | hn
      · rw [if_pos rfl, if_neg hne.symm, if_pos rfl]
      · rw [if_neg hn, if_neg hn]
    rw [hsame]
    rcases (entry m b (entry n a rest)).find? k with _ | node
    · exact .none
    · exact .some (.refl node)
  | trans h₁ _ ih₁ ih₂ => exact Node.Reordered.rel_trans (ih₁ hl) (ih₂ (h₁.wellFormed hl))

end Listing.Reordered

/-! ## Following paths -/

namespace Node

variable {root root' : Node}

/-- **What is at a place** is there in whatever order. -/
theorem Reordered.rel_at? : ∀ (p : Place) {root root' : Node}, root.Reordered root' →
    root.WellFormed → Option.Rel Reordered (root.at? p) (root'.at? p)
  | [], _, _, h, _ => by
    rw [at?, at?]
    exact .some h
  | _ :: _, _, _, .leaf a, _ => .none
  | n :: ns, _, _, @folder _ l l' h, hl => by
    have hrel := h.rel_find? hl n
    rw [at?, at?]
    generalize hfind : l.find? n = found at hrel
    generalize hfind' : l'.find? n = found' at hrel
    cases hrel with
    | none => exact .none
    | some hnode => exact rel_at? ns hnode (Listing.WellFormed.of_find? hl hfind).2

variable (h : ∀ p, Option.Rel Reordered (root.at? p) (root'.at? p))

include h

theorem followTo_congr (jump : Place → Path → List Bytes → Except Fault Place) :
    ∀ (ss : List Bytes) (p : Place), root.followTo jump p ss = root'.followTo jump p ss
  | [], _ => rfl
  | s :: ss, p => by
    rw [followTo, followTo, followTo_congr jump ss p, followTo_congr jump ss p.dropLast,
      followTo_congr jump ss (p ++ [s])]
    have hrel := h (p ++ [s])
    generalize root.at? (p ++ [s]) = node at hrel
    generalize root'.at? (p ++ [s]) = node' at hrel
    cases hrel with
    | none => rfl
    | some hnode => cases hnode <;> rfl

/-- **A path leads to the same place**, in whatever order directories are listed. -/
theorem follow_congr : ∀ k : Nat, root.follow k = root'.follow k
  | 0 => funext fun p => funext fun ss => followTo_congr h _ ss p
  | k + 1 => funext fun p => funext fun ss => by
    rw [follow, follow, follow_congr k]
    exact followTo_congr h _ ss p

end Node

/-- **File trees that differ in the order of entries** only. -/
structure FileTree.Reordered (t t' : FileTree) : Prop where
  top : t.top.Reordered t'.top
  workingDir : t'.workingDir = t.workingDir

/-- **What a path leads to** does not depend on the order in which directories are listed. -/
theorem FileTree.Reordered.find_cases {t t' : FileTree} (h : t.Reordered t') (p : Path) :
    t'.find p = t.find p ∨ ∃ listable l l', t.find p = .ok (.folder listable l) ∧
      t'.find p = .ok (.folder listable l') ∧ l.Reordered l' := by
  have hat : ∀ q, Option.Rel Node.Reordered (t.root.at? q) (t'.root.at? q) := fun q =>
    Node.Reordered.rel_at? q (.folder true h.top) t.wellFormed
  have hplace : t'.place p = t.place p := by
    rw [place, place, follow, follow, h.workingDir, Node.follow_congr hat]
  rw [find, find, hplace]
  rcases t.place p with fault | q
  · exact .inl rfl
  · simp only
    have hrel := hat q
    generalize t.root.at? q = node at hrel
    generalize t'.root.at? q = node' at hrel
    cases hrel with
    | none => exact .inl rfl
    | some hnode =>
      cases hnode with
      | leaf a => exact .inl rfl
      | folder listable hl => exact .inr ⟨listable, _, _, rfl, rfl, hl⟩

end TclAtlas
