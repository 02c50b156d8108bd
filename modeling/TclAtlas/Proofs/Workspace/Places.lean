import TclAtlas.Workspace.FileTree
import Mathlib.Logic.Basic

/-!
# Proofs/Workspace/Places — what is where

`Node.at?` says what some names lead down to, by entries alone.  Where no directory is, what is
there can be set anew; this changes nothing anywhere else (`Listing.keeps_setAt`), except that the
directories above hold something else then.  How much that matters to other places is told by
`Node.Keeps`: they keep what they have, or a directory is made where nothing was.
-/

namespace TclAtlas

namespace Node

/-! ## What is at a place -/

theorem at?_folder_cons (listable : Bool) (l : Listing) (n : Bytes) (ns : Place) :
    (folder listable l).at? (n :: ns) = (l.find? n).bind (·.at? ns) := by
  rw [at?]
  rcases l.find? n with _ | node <;> rfl

theorem at?_nil (node : Node) : node.at? [] = some node := by rw [at?]

/-- **Going on from a place.** -/
theorem at?_append : ∀ (node : Node) (ms ns : Place),
    node.at? (ms ++ ns) = (node.at? ms).bind (·.at? ns)
  | node, [], ns => by rw [at?_nil]; rfl
  | leaf a, m :: ms, ns => rfl
  | folder listable l, m :: ms, ns => by
    rw [List.cons_append, at?_folder_cons, at?_folder_cons]
    rcases l.find? m with _ | node
    · rfl
    · exact at?_append node ms ns

/-- What is at a place of a well-formed directory is well formed, and so are the names that lead
there. -/
theorem WellFormed.of_at? {node' : Node} : ∀ {p : Place} {node : Node}, node.WellFormed →
    node.at? p = some node' → (∀ n ∈ p, isEntryName n) ∧ node'.WellFormed
  | [], node, h, hat => by
    rw [at?_nil] at hat
    exact ⟨by simp, Option.some.inj hat ▸ h⟩
  | n :: ns, folder listable l, h, hat => by
    rw [at?_folder_cons] at hat
    obtain ⟨below, hfind, hat⟩ := Option.bind_eq_some_iff.mp hat
    obtain ⟨hn, hbelow⟩ := Listing.WellFormed.of_find? h hfind
    obtain ⟨hns, hnode'⟩ := hbelow.of_at? hat
    exact ⟨List.forall_mem_cons.mpr ⟨hn, hns⟩, hnode'⟩

/-- **The directory of an entry.** -/
theorem exists_folder_of_at? {node node' : Node} {p : Place} {n : Bytes}
    (h : node.at? (p ++ [n]) = some node') :
    ∃ listable inside, node.at? p = some (folder listable inside) ∧
      inside.find? n = some node' := by
  rw [at?_append] at h
  obtain ⟨below, hbelow, h⟩ := Option.bind_eq_some_iff.mp h
  rcases below with a | ⟨listable, inside⟩
  · exact absurd h (by simp [at?])
  · rw [at?_folder_cons] at h
    obtain ⟨found, hfound, h⟩ := Option.bind_eq_some_iff.mp h
    rw [at?_nil] at h
    exact ⟨listable, inside, hbelow, h ▸ hfound⟩

/-! ## What other places keep -/

/-- **What becomes of a place** when another one is set anew. -/
inductive Keeps : Option Node → Option Node → Prop
  | absent : Keeps none none
  | leaf (a : Leaf) : Keeps (some (.leaf a)) (some (.leaf a))
  | folder (listable : Bool) (l l' : Listing) :
    Keeps (some (.folder listable l)) (some (.folder listable l'))
  | made (l : Listing) : Keeps none (some (.folder true l))

namespace Keeps

theorem refl : ∀ a : Option Node, Keeps a a
  | none => .absent
  | some (.leaf a) => .leaf a
  | some (.folder listable l) => .folder listable l l

theorem trans {a b c : Option Node} : Keeps a b → Keeps b c → Keeps a c
  | .absent, h => h
  | .leaf _, h => h
  | .folder listable l _, .folder _ _ l'' => .folder listable l l''
  | .made _, .folder _ _ l'' => .made l''

/-- A directory stays one, as open as it was. -/
theorem of_folder {b : Option Node} {listable : Bool} {l : Listing}
    (h : Keeps (some (.folder listable l)) b) : ∃ l', b = some (.folder listable l') := by
  cases h with
  | folder _ _ l' => exact ⟨l', rfl⟩

theorem of_leaf {b : Option Node} {a : Leaf} (h : Keeps (some (.leaf a)) b) :
    b = some (.leaf a) := by
  cases h
  rfl

/-- Only directories are made. -/
theorem leaf_iff {a b : Option Node} (h : Keeps a b) (x : Leaf) :
    b = some (.leaf x) ↔ a = some (.leaf x) := by
  cases h <;> simp

end Keeps

/-! ## Setting a place anew -/

/-- **Nothing is below** what is there, if anything is. -/
def Bare (a : Option Node) : Prop := ∀ n ns, a.bind (·.at? (n :: ns)) = none

theorem bare_none : Bare none := fun _ _ => rfl

theorem bare_leaf (a : Leaf) : Bare (some (leaf a)) := fun _ _ => rfl

theorem bare_folder_nil (listable : Bool) : Bare (some (folder listable .nil)) := fun _ _ => rfl

/-- **Nothing or a file.** -/
def Plain (a : Option Node) : Prop :=
  ∀ node ∈ a, ∃ content readable, node = leaf (.file content readable)

theorem plain_none : Plain none := fun _ h => absurd h (by simp)

theorem plain_file (content : Bytes) (readable : Bool) :
    Plain (some (leaf (.file content readable))) := by
  rintro _ ⟨⟩
  exact ⟨content, readable, rfl⟩

/-- Directories are made where nothing is, so nothing or a file has been so before. -/
theorem Keeps.plain {a b : Option Node} (h : Keeps a b) (hb : Plain b) : Plain a := by
  cases h with
  | absent => exact plain_none
  | leaf x => exact hb
  | folder listable l l' => exact absurd (hb _ rfl) (by simp)
  | made l => exact plain_none

end Node

namespace Listing

open Node (Keeps Bare)

variable {new : Option Node}

/-- **Setting an entry** without anything below it changes nothing elsewhere. -/
theorem keeps_set (listable : Bool) {l : Listing} {n : Bytes} (h : Bare (l.find? n))
    (hnew : Bare new) : ∀ q, Keeps ((Node.folder listable l).at? q)
        ((Node.folder listable (l.set n new)).at? q) ∨
      q = [n] ∧ (Node.folder listable (l.set n new)).at? q = new
  | [] => .inl (.folder listable l _)
  | m :: ms => by
    rw [Node.at?_folder_cons, Node.at?_folder_cons, find?_set]
    split
    · next hm =>
      subst hm
      rcases ms with _ | ⟨k, ks⟩
      · refine .inr ⟨rfl, ?_⟩
        rcases new with _ | node
        · rfl
        · exact Node.at?_nil node
      · rw [h k ks, hnew k ks]
        exact .inl .absent
    · exact .inl (.refl _)

/-- **Setting a place anew**, where nothing is below, changes nothing elsewhere.  The place itself
is set, or stays as it is when its directory is missing. -/
theorem keeps_setAt (hnew : Bare new) : ∀ (p : Place) (listable : Bool) (l : Listing),
    Bare ((Node.folder listable l).at? p) → ∀ q, Keeps ((Node.folder listable l).at? q)
        ((Node.folder listable (l.setAt new p)).at? q) ∨
      q = p ∧ (Node.folder listable (l.setAt new p)).at? q = new
  | [], _, _, _, _ => .inl (.refl _)
  | [n], listable, l, h, q => by
    rw [Node.at?_folder_cons] at h
    refine keeps_set listable ?_ hnew q
    rcases hfind : l.find? n with _ | node
    · exact Node.bare_none
    · rwa [hfind, Option.bind_some, Node.at?_nil] at h
  | n :: m :: ns, listable, l, h, q => by
    rw [setAt]
    split
    · next listable' inside hfind =>
      rw [Node.at?_folder_cons, hfind, Option.bind_some] at h
      rcases q with _ | ⟨k, ks⟩
      · exact .inl (.folder listable l _)
      · rw [Node.at?_folder_cons, Node.at?_folder_cons, find?_set]
        split
        · next hk =>
          subst hk
          rw [hfind]
          exact (keeps_setAt hnew (m :: ns) listable' inside h ks).imp_right
            fun hset => ⟨congrArg (n :: ·) hset.1, hset.2⟩
        · exact .inl (.refl _)
    · exact .inl (.refl _)

/-- **What is set at a place** is there then, if its directory is. -/
theorem at?_setAt_self (n : Bytes) : ∀ (d : Place) (listable : Bool) (l : Listing)
    {listable' : Bool} {inside : Listing},
    (Node.folder listable l).at? d = some (.folder listable' inside) →
      (Node.folder listable (l.setAt new (d ++ [n]))).at? (d ++ [n]) = new
  | [], listable, l, _, _, _ => by
    rw [List.nil_append, setAt, Node.at?_folder_cons, find?_set, if_pos rfl]
    rcases new with _ | node
    · rfl
    · exact Node.at?_nil node
  | k :: ks, listable, l, listable', inside, h => by
    obtain ⟨m, ms, hm⟩ : ∃ m ms, ks ++ [n] = m :: ms := List.exists_cons_of_ne_nil (by simp)
    rw [Node.at?_folder_cons] at h
    obtain ⟨below, hfind, h⟩ := Option.bind_eq_some_iff.mp h
    rcases below with a | ⟨listable'', inside'⟩
    · rcases ks with _ | ⟨k', ks⟩ <;> exact absurd h (by simp [Node.at?])
    · have ih := at?_setAt_self n ks listable'' inside' h
      rw [hm] at ih
      rw [List.cons_append, hm, setAt, hfind]
      simp only
      rw [Node.at?_folder_cons, find?_set, if_pos rfl]
      exact ih

end Listing

namespace FileTree

open Node (Keeps Bare Plain)

theorem wellFormed_root (t : FileTree) : t.root.WellFormed := t.wellFormed

/-- The tree with a place set anew. -/
theorem root_setAt (t : FileTree) {new : Option Node} (hnew : ∀ node ∈ new, node.WellFormed)
    (p : Place) : (t.setAt new hnew p).root = .folder true (t.top.setAt new p) ∨
      (t.setAt new hnew p).root = t.root := by
  rw [setAt]
  split
  · exact .inl rfl
  · exact .inr rfl

/-- **Setting a place anew**, where nothing is below, changes nothing elsewhere. -/
theorem keeps_setAt (t : FileTree) {new : Option Node} (hnew : ∀ node ∈ new, node.WellFormed)
    (hbare : Bare new) {p : Place} (h : Bare (t.root.at? p)) (q : Place) :
    Keeps (t.root.at? q) ((t.setAt new hnew p).root.at? q) ∨
      q = p ∧ (t.setAt new hnew p).root.at? q = new := by
  rcases t.root_setAt hnew p with hroot | hroot <;> rw [hroot]
  · exact t.top.keeps_setAt hbare p true h q
  · exact .inl (.refl _)

/-- **What is set in the place of something** is there then. -/
theorem at?_setAt_self (t : FileTree) {new : Option Node} (hnew : ∀ node ∈ new, node.WellFormed)
    {p : Place} {n : Bytes} {node : Node} (h : t.root.at? (p ++ [n]) = some node) :
    (t.setAt new hnew (p ++ [n])).root.at? (p ++ [n]) = new := by
  obtain ⟨hnames, -⟩ := t.wellFormed_root.of_at? h
  obtain ⟨listable, inside, hfolder, -⟩ := Node.exists_folder_of_at? h
  rw [setAt, dif_pos hnames]
  exact Listing.at?_setAt_self n p true t.top hfolder

@[simp] theorem workingDir_setAt (t : FileTree) (new : Option Node)
    (hnew : ∀ node ∈ new, node.WellFormed) (p : Place) :
    (t.setAt new hnew p).workingDir = t.workingDir := by
  rw [setAt]
  split <;> rfl

/-- **Making a directory** where nothing is changes nothing elsewhere. -/
theorem keeps_makeFolderAt (t : FileTree) (p q : Place) :
    Keeps (t.root.at? q) ((t.makeFolderAt p).root.at? q) := by
  rw [makeFolderAt]
  split
  · next hnone =>
    rw [Option.isNone_iff_eq_none] at hnone
    refine (t.keeps_setAt _ (Node.bare_folder_nil true) (hnone ▸ Node.bare_none) q).elim id ?_
    rintro ⟨rfl, hset⟩
    rw [hnone, hset]
    exact .made .nil
  · exact .refl _

@[simp] theorem workingDir_makeFolderAt (t : FileTree) (p : Place) :
    (t.makeFolderAt p).workingDir = t.workingDir := by
  rw [makeFolderAt]
  split
  · exact t.workingDir_setAt _ _ p
  · rfl

/-- **Putting a file** at a place changes nothing elsewhere.  What is there stays, unless it is
nothing or a file. -/
theorem keeps_putFileAt (t : FileTree) (content : Bytes) (p q : Place) :
    Keeps (t.root.at? q) ((t.putFileAt content p).root.at? q) ∨
      q = p ∧ Plain (t.root.at? q) ∧ Plain ((t.putFileAt content p).root.at? q) := by
  rw [putFileAt]
  split
  · next hnone =>
    refine (t.keeps_setAt _ (Node.bare_leaf _) (hnone ▸ Node.bare_none) q).imp_right ?_
    rintro ⟨rfl, hset⟩
    exact ⟨rfl, hnone ▸ Node.plain_none, hset ▸ Node.plain_file content true⟩
  · next old readable hfile =>
    refine (t.keeps_setAt _ (Node.bare_leaf _) (hfile ▸ Node.bare_leaf _) q).imp_right ?_
    rintro ⟨rfl, hset⟩
    exact ⟨rfl, hfile ▸ Node.plain_file old readable, hset ▸ Node.plain_file content readable⟩
  · exact .inl (.refl _)
  · exact .inl (.refl _)

@[simp] theorem workingDir_putFileAt (t : FileTree) (content : Bytes) (p : Place) :
    (t.putFileAt content p).workingDir = t.workingDir := by
  rw [putFileAt]
  split
  · exact t.workingDir_setAt _ _ p
  · exact t.workingDir_setAt _ _ p
  · rfl
  · rfl

end FileTree

end TclAtlas
