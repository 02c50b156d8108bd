import TclAtlas.Path

/-!
# Workspace/Listing — what directories hold

A **listing** is the contents of a directory: a sequence of named entries, which are files, symbolic
links and directories.  A file may be closed to readers, and a directory to those who would list it.
A listing is well formed when no directory has two entries of one name and every entry has a name
that it can have.

What is at a **place**, the names on the way down from a directory, goes by the entries alone: links
are not followed.  A place can be set anew, and the listing stays well formed
(`Listing.WellFormed.setAt`).
-/

namespace TclAtlas

/-- **A place**: the names on the way down. -/
abbrev Place := List Bytes

/-- **An entry that is no directory.** -/
inductive Leaf
  | file (content : Bytes) (readable : Bool)
  /-- A symbolic link. -/
  | link (target : Path)
  deriving DecidableEq, Repr

/-- **The contents of a directory.** -/
inductive Listing
  | nil
  | leaf (name : Bytes) (a : Leaf) (rest : Listing)
  | folder (name : Bytes) (listable : Bool) (inside rest : Listing)
  deriving DecidableEq, Repr

/-- **What is at a place.** -/
inductive Node
  | leaf (a : Leaf)
  | folder (listable : Bool) (inside : Listing)
  deriving DecidableEq, Repr

namespace Listing

/-- The names of the entries. -/
def names : Listing → List Bytes
  | nil => []
  | leaf n _ rest => n :: names rest
  | folder n _ _ rest => n :: names rest

/-- **No directory has two entries of one name**, and every entry has a name that it can have. -/
def WellFormed : Listing → Prop
  | nil => True
  | leaf n _ rest => isEntryName n ∧ n ∉ names rest ∧ WellFormed rest
  | folder n _ inside rest => isEntryName n ∧ n ∉ names rest ∧ WellFormed inside ∧ WellFormed rest

instance decidableWellFormed : ∀ l : Listing, Decidable l.WellFormed
  | nil => isTrue trivial
  | leaf n _ rest =>
    have := decidableWellFormed rest
    inferInstanceAs (Decidable (isEntryName n ∧ n ∉ rest.names ∧ rest.WellFormed))
  | folder n _ inside rest =>
    have := decidableWellFormed inside
    have := decidableWellFormed rest
    inferInstanceAs
      (Decidable (isEntryName n ∧ n ∉ rest.names ∧ inside.WellFormed ∧ rest.WellFormed))

/-- The entry of a name. -/
def find? (name : Bytes) : Listing → Option Node
  | nil => none
  | leaf n a rest => if n = name then some (.leaf a) else find? name rest
  | folder n listable inside rest =>
    if n = name then some (.folder listable inside) else find? name rest

/-! ## Setting entries -/

/-- The listing with one more entry in front. -/
def entry (name : Bytes) : Node → Listing → Listing
  | .leaf a, rest => leaf name a rest
  | .folder listable inside, rest => folder name listable inside rest

/-- The listing without the entry of a name. -/
def without (name : Bytes) : Listing → Listing
  | nil => nil
  | leaf n a rest => if n = name then without name rest else leaf n a (without name rest)
  | folder n listable inside rest =>
    if n = name then without name rest else folder n listable inside (without name rest)

/-- **The listing with the entry of a name set anew**, or taken out. -/
def set (name : Bytes) (new : Option Node) (l : Listing) : Listing :=
  match new with
  | none => l.without name
  | some node => entry name node (l.without name)

/-- **The listing with what is at a place set anew**, or taken out.  Where the directories on the
way are missing, nothing changes. -/
def setAt (new : Option Node) : Place → Listing → Listing
  | [], l => l
  | [n], l => l.set n new
  | n :: m :: ns, l =>
    match l.find? n with
    | some (.folder listable inside) =>
      l.set n (some (.folder listable (setAt new (m :: ns) inside)))
    | _ => l

end Listing

namespace Node

/-- **What is at a place** below. -/
def at? : Node → Place → Option Node
  | node, [] => some node
  | leaf _, _ :: _ => none
  | folder _ inside, n :: ns =>
    match inside.find? n with
    | none => none
    | some node => at? node ns

/-- A directory of a well-formed listing, or no directory. -/
def WellFormed : Node → Prop
  | leaf _ => True
  | folder _ inside => inside.WellFormed

end Node

namespace Listing

/-! ## One entry at a time -/

theorem find?_entry (n : Bytes) (node : Node) (rest : Listing) (k : Bytes) :
    (entry n node rest).find? k = if n = k then some node else rest.find? k := by
  cases node <;> rfl

theorem names_entry (n : Bytes) (node : Node) (rest : Listing) :
    (entry n node rest).names = n :: rest.names := by
  cases node <;> rfl

theorem wellFormed_entry_iff {n : Bytes} {node : Node} {rest : Listing} :
    (entry n node rest).WellFormed ↔
      isEntryName n ∧ n ∉ rest.names ∧ node.WellFormed ∧ rest.WellFormed := by
  cases node <;> simp [entry, WellFormed, Node.WellFormed]

theorem find?_without (n k : Bytes) : ∀ l : Listing,
    (l.without n).find? k = if n = k then none else l.find? k
  | nil => by simp [without, find?]
  | leaf m a rest => by
    have ih := find?_without n k rest
    rw [without, find?]
    split <;> grind [find?]
  | folder m listable inside rest => by
    have ih := find?_without n k rest
    rw [without, find?]
    split <;> grind [find?]

theorem mem_names_without {n k : Bytes} : ∀ {l : Listing},
    k ∈ (l.without n).names → k ∈ l.names ∧ k ≠ n
  | nil, h => absurd h List.not_mem_nil
  | leaf m a rest, h => by
    have ih := mem_names_without (n := n) (k := k) (l := rest)
    grind [without, names]
  | folder m listable inside rest, h => by
    have ih := mem_names_without (n := n) (k := k) (l := rest)
    grind [without, names]

theorem WellFormed.without (n : Bytes) : ∀ {l : Listing}, l.WellFormed → (l.without n).WellFormed
  | nil, h => h
  | leaf m a rest, ⟨hname, hm, hrest⟩ => by
    rw [Listing.without]
    split
    · exact hrest.without n
    · exact ⟨hname, fun hmem => hm (mem_names_without hmem).1, hrest.without n⟩
  | folder m listable inside rest, ⟨hname, hm, hinside, hrest⟩ => by
    rw [Listing.without]
    split
    · exact hrest.without n
    · exact ⟨hname, fun hmem => hm (mem_names_without hmem).1, hinside, hrest.without n⟩

/-- **Setting an entry** changes what is found under its name only. -/
theorem find?_set (n : Bytes) (new : Option Node) (l : Listing) (k : Bytes) :
    (l.set n new).find? k = if n = k then new else l.find? k := by
  rcases new with _ | node
  · exact find?_without n k l
  · rw [set, find?_entry, find?_without]
    split <;> rfl

theorem WellFormed.set {n : Bytes} (hn : isEntryName n) {new : Option Node}
    (hnew : ∀ node ∈ new, node.WellFormed) {l : Listing} (h : l.WellFormed) :
    (l.set n new).WellFormed := by
  rcases new with _ | node
  · exact h.without n
  · exact wellFormed_entry_iff.mpr
      ⟨hn, fun hmem => (mem_names_without hmem).2 rfl, hnew node rfl, h.without n⟩

/-- What is found in a well-formed listing is well formed. -/
theorem WellFormed.of_find? {n : Bytes} {node : Node} : ∀ {l : Listing}, l.WellFormed →
    l.find? n = some node → isEntryName n ∧ node.WellFormed
  | leaf m a rest, ⟨hname, _, hrest⟩, hfind => by
    rw [find?] at hfind
    split at hfind
    · next hm => exact ⟨hm ▸ hname, Option.some.inj hfind ▸ trivial⟩
    · exact hrest.of_find? hfind
  | folder m listable inside rest, ⟨hname, _, hinside, hrest⟩, hfind => by
    rw [find?] at hfind
    split at hfind
    · next hm => exact ⟨hm ▸ hname, Option.some.inj hfind ▸ hinside⟩
    · exact hrest.of_find? hfind

/-- **Setting what is at a place** keeps a listing well formed. -/
theorem WellFormed.setAt {new : Option Node} (hnew : ∀ node ∈ new, node.WellFormed) :
    ∀ {p : Place} {l : Listing}, (∀ n ∈ p, isEntryName n) → l.WellFormed →
      (l.setAt new p).WellFormed
  | [], _, _, h => h
  | [n], _, hp, h => h.set (hp n List.mem_cons_self) hnew
  | n :: m :: ns, l, hp, h => by
    obtain ⟨hn, hp⟩ := List.forall_mem_cons.mp hp
    rw [Listing.setAt]
    split
    · next listable inside hfind =>
      have hinside : (inside.setAt new (m :: ns)).WellFormed :=
        WellFormed.setAt hnew hp (h.of_find? hfind).2
      refine h.set hn fun node hnode => ?_
      obtain rfl := Option.some.inj hnode
      exact hinside
    · exact h

end Listing

end TclAtlas
