import TclAtlas.Proofs.Ordered.Sorting
import TclAtlas.Proofs.Workspace.Reordering
import TclAtlas.Proofs.Workspace.Walk

/-!
# Proofs/Workspace/Collecting — the files collected at a search path

A search path is a file, a directory or neither.  The files collected at a directory are its source
files (`Listing.IsSource`): names lead down to them through directories that are not excluded, and
their own names have a selected extension.  They are in the order of paths (`Path.Before`), which is
read off the components and has nothing to do with the order in which directories are listed
(`FileTree.collect_exact`).
-/

namespace TclAtlas

/-! ## The order of paths -/

namespace Component

/-- The place of a component among those of other kinds. -/
def rank : Component → Nat
  | root => 0
  | here => 1
  | above => 2
  | normal _ => 3

/-- **The order of components**: the slash at the start, a dot, a double dot, and then the names by
their bytes. -/
inductive Before : Component → Component → Prop
  | kind {c d : Component} (h : c.rank < d.rank) : Before c d
  | name {m n : Bytes} (h : m < n) : Before (normal m) (normal n)

theorem before_iff {c d : Component} : c.Before d ↔
    c.rank < d.rank ∨ ∃ m n, c = normal m ∧ d = normal n ∧ m < n := by
  constructor
  · rintro (h | h)
    · exact .inl h
    · exact .inr ⟨_, _, rfl, rfl, h⟩
  · rintro (h | ⟨m, n, rfl, rfl, h⟩)
    · exact .kind h
    · exact .name h

theorem key_injective : Function.Injective key := by
  have hbytes : Function.Injective (List.map UInt8.toNat) :=
    List.map_injective_iff.mpr fun _ _ h => UInt8.toNat_inj.mp h
  intro c d h
  cases c <;> cases d <;> simp_all [key, hbytes.eq_iff]

end Component

/-- An injective translation of the members carries the order of lists over. -/
theorem lex_map_iff {α β : Type} {f : α → β} (hf : Function.Injective f) {r : α → α → Prop}
    {s : β → β → Prop} (hr : ∀ a b, s (f a) (f b) ↔ r a b) :
    ∀ {l m : List α}, List.Lex s (l.map f) (m.map f) ↔ List.Lex r l m
  | [], [] => by simp
  | [], _ :: _ => by simp
  | _ :: _, [] => by simp
  | a :: l, b :: m => by
    rw [List.map_cons, List.map_cons, List.cons_lex_cons_iff, List.cons_lex_cons_iff,
      lex_map_iff hf hr, hr, hf.eq_iff]

theorem Component.key_lt_iff {c d : Component} : c.key < d.key ↔ c.Before d := by
  have hnames : ∀ {m n : Bytes}, m.map UInt8.toNat < n.map UInt8.toNat ↔ m < n :=
    lex_map_iff (fun _ _ h => UInt8.toNat_inj.mp h) fun _ _ => UInt8.lt_iff_toNat_lt.symm
  rw [before_iff]
  cases c <;> cases d <;> simp [key, rank, hnames, List.cons_lt_cons_iff]

namespace Path

/-- **The order of paths**, component by component. -/
def Before (p q : Path) : Prop := List.Lex Component.Before p.components q.components

theorem key_lt_iff {p q : Path} : p.key < q.key ↔ p.Before q :=
  lex_map_iff Component.key_injective fun _ _ => Component.key_lt_iff

theorem le_iff (p q : Path) : p.le q = true ↔ p.key ≤ q.key := by
  simp [le]

theorem key_eq_iff {p q : Path} : p.key = q.key ↔ p.components = q.components :=
  ((List.map_injective_iff.mpr Component.key_injective).eq_iff)

end Path

/-! ## Selected names -/

/-- **A name with an extension.** -/
def HasExtension (name e : Bytes) : Prop := ∃ stem, name = stem ++ dot :: e ∧ stem ≠ [] ∧ dot ∉ e

namespace Path

theorem takeWhile_reverse_append {e : Bytes} (he : dot ∉ e) (t : Bytes) :
    (e.reverse ++ t).takeWhile (· != dot) = e.reverse ++ t.takeWhile (· != dot) := by
  refine List.takeWhile_append_of_pos fun c hc => ?_
  simpa using fun h : c = dot => he (h ▸ List.mem_reverse.mp hc)

theorem extensionOf?_append {stem e : Bytes} (he : dot ∉ e) :
    extensionOf? (stem ++ dot :: e) = if stem = [] then none else some e := by
  have hlast : ((stem ++ dot :: e).reverse.takeWhile (· != dot)).reverse = e := by
    rw [List.reverse_append, List.reverse_cons, List.append_assoc, takeWhile_reverse_append he]
    simp
  simp only [extensionOf?, hlast]
  rcases stem with _ | ⟨c, stem⟩
  · simp
  · have hlength : e.length + 1 < (c :: stem ++ dot :: e).length := by
      simp only [List.cons_append, List.length_cons, List.length_append]
      omega
    rw [if_pos hlength, if_neg (List.cons_ne_nil c stem)]

theorem extensionOf?_of_dot_not_mem {name : Bytes} (h : dot ∉ name) : extensionOf? name = none := by
  have hwhole := takeWhile_reverse_append h []
  simp only [List.append_nil, List.takeWhile_nil] at hwhole
  simp [extensionOf?, hwhole]

theorem extensionOf?_eq_some_iff {name e : Bytes} :
    extensionOf? name = some e ↔ HasExtension name e := by
  constructor
  · intro h
    by_cases hdot : dot ∈ name
    · -- the last dot is the first one from the end
      obtain ⟨u, v, huv, hu⟩ := List.eq_append_cons_of_mem (List.mem_reverse.mpr hdot)
      have hname : name = v.reverse ++ dot :: u.reverse := by
        simpa using congrArg List.reverse huv
      have he : dot ∉ u.reverse := fun hmem => hu (List.mem_reverse.mp hmem)
      rw [hname, extensionOf?_append he] at h
      split at h
      · exact absurd h (by simp)
      · next hstem => exact Option.some.inj h ▸ ⟨v.reverse, hname, hstem, he⟩
    · rw [extensionOf?_of_dot_not_mem hdot] at h
      exact absurd h (by simp)
  · rintro ⟨stem, rfl, hstem, he⟩
    rw [extensionOf?_append he, if_neg hstem]

end Path

namespace Selection

/-- **A file name is selected** for its extension, a text which is compared without regard to the
case of ASCII letters. -/
def Selects (sel : Selection) (name : Bytes) : Prop :=
  ∃ e : Text, HasExtension name e.utf8 ∧
    ∃ f ∈ sel.extensions, e.map Char.toLower = f.map Char.toLower

theorem hasExtension_iff {sel : Selection} {p : Path} :
    sel.hasExtension p = true ↔ ∃ n, p.fileName? = some n ∧ sel.Selects n := by
  simp only [Selects, ← Path.extensionOf?_eq_some_iff, hasExtension, Path.extension?]
  rcases p.fileName? with _ | n
  · simp
  · rcases hext : Path.extensionOf? n with _ | bs
    · simp [hext]
    · rcases htext : Text.ofUtf8? bs with _ | e
      · have hnone : ∀ e : Text, bs ≠ e.utf8 := fun e he =>
          absurd (htext.symm.trans (Text.ofUtf8?_eq_some_iff.mpr he)) (by simp)
        simp [hext, htext, hnone]
      · obtain rfl := Text.ofUtf8?_eq_some_iff.mp htext
        simp [hext, htext, sameExtension, Text.utf8_inj]

theorem excludes_eq_false_iff {sel : Selection} {n : Bytes} :
    sel.excludes n = false ↔ ∀ dir ∈ sel.excludedDirs, n ≠ dir.utf8 := by
  rw [excludes]
  rcases htext : Text.ofUtf8? n with _ | t
  · refine ⟨fun _ dir _ hn => ?_, fun _ => rfl⟩
    exact absurd (htext.symm.trans (Text.ofUtf8?_eq_some_iff.mpr hn)) (by simp)
  · obtain rfl := Text.ofUtf8?_eq_some_iff.mp htext
    simp only [Option.any_some, List.contains_eq_mem, decide_eq_false_iff_not, ne_eq,
      Text.utf8_inj]
    exact ⟨fun h dir hdir heq => h (heq ▸ hdir), fun h hmem => h t hmem rfl⟩

end Selection

/-! ## Sources below a directory -/

theorem Path.fileName?_descend {p : Path} (hp : p.spelling ≠ []) {dirs : List Bytes} {n : Bytes}
    (hns : ∀ m ∈ dirs ++ [n], Component.IsName m) :
    (p.descend (dirs ++ [n])).fileName? = some n := by
  rw [fileName?, components_descend hp hns, List.map_append, ← List.append_assoc]
  simp [Component.name?]

namespace Listing

/-- **A source file below a directory**: names lead down to it through directories that are not
excluded, and its own name is selected. -/
def IsSource (sel : Selection) (l : Listing) (rel : Place) : Prop :=
  ∃ dirs n content readable, rel = dirs ++ [n] ∧
    l.at? rel = some (.leaf (.file content readable)) ∧ sel.Selects n ∧
      ∀ d ∈ dirs, ∀ dir ∈ sel.excludedDirs, d ≠ dir.utf8

/-- **What a walk meets** goes by different names when it is met at different entries. -/
theorem key_ne_of_meets {sel : Selection} {base p q : Path} (hbase : base.spelling ≠ [])
    (n : Bytes) (node : Node) {rest : Listing} (hl : (entry n node rest).WellFormed)
    (hp : node.Meets sel base n p) (hq : rest.Meets sel base q) : p.key ≠ q.key := by
  obtain ⟨hname, hn, hnode, hrest⟩ := wellFormed_entry_iff.mp hl
  have hfirst : (entry n node .nil).Meets sel base p :=
    (meets_entry_iff sel base p node (by simp [names])).mpr (.inl hp)
  obtain ⟨m, ms, _, _, hat, rfl, -⟩ := hfirst
  obtain ⟨k, ks, _, _, hat', rfl, -⟩ := hq
  have hfirst : (entry n node .nil).WellFormed :=
    wellFormed_entry_iff.mpr ⟨hname, by simp [names], hnode, trivial⟩
  intro hkey
  have hnames : m :: ms = k :: ks := Path.descend_injective hbase (isName_of_at? hfirst hat)
    (isName_of_at? hrest hat') (Path.key_eq_iff.mp hkey)
  obtain ⟨rfl, -⟩ := List.cons.inj hnames
  -- the first name is that of the entry on the one hand, and of none of the others
  rw [at?_cons, find?_entry] at hat
  rw [at?_cons] at hat'
  split at hat
  · next hm =>
    rw [← hm, find?_eq_none_of_not_mem hn] at hat'
    exact absurd hat' (by simp)
  · exact absurd hat (by simp [find?])

/-- **A walk finds no file twice**, in whatever spelling. -/
theorem pairwise_walk (sel : Selection) : ∀ {l : Listing} {base : Path}, base.spelling ≠ [] →
    l.WellFormed → (l.walk sel base).Pairwise fun p q => p.key ≠ q.key
  | .nil, _, _, _ => .nil
  | .leaf n (.file content readable) rest, base, hbase, hl => by
    refine List.pairwise_append.mpr
      ⟨by split <;> simp, pairwise_walk sel hbase hl.2.2, fun p hp q hq => ?_⟩
    have hmeets : (Node.leaf (.file content readable)).Meets sel base n p := by
      split at hp
      · next hext =>
        obtain rfl := List.mem_singleton.mp hp
        exact ⟨rfl, hext⟩
      · exact absurd hp List.not_mem_nil
    exact key_ne_of_meets hbase n (.leaf (.file content readable)) hl hmeets
      ((rest.mem_walk_iff sel q base hl.2.2).mp hq)
  | .leaf n (.link target) rest, base, hbase, hl => by
    rw [walk]
    exact pairwise_walk sel hbase hl.2.2
  | .folder n listable inside rest, base, hbase, hl => by
    refine List.pairwise_append.mpr
      ⟨?_, pairwise_walk sel hbase hl.2.2.2, fun p hp q hq => ?_⟩
    · split
      · exact .nil
      · exact pairwise_walk sel (Path.spelling_join_ne_nil hbase n) hl.2.2.1
    · have hmeets : (Node.folder listable inside).Meets sel base n p := by
        split at hp
        · exact absurd hp List.not_mem_nil
        · next hopen =>
          simp only [Bool.or_eq_true, not_or, Bool.not_eq_true, Bool.not_eq_false'] at hopen
          exact ⟨hopen.1.2, hopen.1.1, hopen.2, (inside.mem_walk_iff sel p _ hl.2.2.1).mp hp⟩
      exact key_ne_of_meets hbase n (.folder listable inside) hl hmeets
        ((rest.mem_walk_iff sel q base hl.2.2.2).mp hq)

/-- **A walk of a reordered directory** finds the same files. -/
theorem Reordered.walk_perm (sel : Selection) {l l' : Listing} (h : l.Reordered l') :
    ∀ base, (l.walk sel base).Perm (l'.walk sel base) := by
  have hentry : ∀ (n : Bytes) (a : Node) (rest : Listing) (base : Path),
      (entry n a rest).walk sel base = (entry n a .nil).walk sel base ++ rest.walk sel base := by
    rintro n ((_ | _) | _) rest base <;> simp [entry, walk]
  induction h with
  | nil => exact fun base => .refl _
  | leaf n a _ ih =>
    intro base
    cases a with
    | file content readable => exact (ih base).append_left _
    | link target => exact ih base
  | folder n listable _ _ ihinside ihrest =>
    intro base
    refine .append ?_ (ihrest base)
    split
    · exact .refl _
    · exact ihinside _
  | swap n m a b rest =>
    intro base
    rw [hentry n a, hentry m b, hentry m b (entry n a rest), hentry n a rest, ← List.append_assoc,
      ← List.append_assoc]
    exact List.perm_append_comm.append_right _
  | trans _ _ ih₁ ih₂ => exact fun base => (ih₁ base).trans (ih₂ base)

end Listing

/-! ## Collecting -/

namespace FileTree

/-- **Every directory below a path is reached** by the path joined with the names that lead down to
it, and can be listed. -/
def ReachesAll (t : FileTree) (p : Path) (l : Listing) : Prop :=
  ∀ ns listable inside, l.at? ns = some (.folder listable inside) →
    listable = true ∧ t.find (p.descend ns) = .ok (.folder true inside)

section

variable {t : FileTree} {sel : Selection} {p : Path} {l : Listing}
  (hp : t.find p = .ok (.folder true l))

include hp

theorem pairwise_walk_of_find : (l.walk sel p).Pairwise fun q r => q.key ≠ r.key :=
  Listing.pairwise_walk sel (within_of_find hp).spelled (wellFormed_of_find hp)

/-- **A walk finds the source files**, where every directory is reached. -/
theorem mem_walk_iff_isSource (hreach : t.ReachesAll p l) {q : Path} :
    q ∈ l.walk sel p ↔ ∃ rel, q = p.descend rel ∧ l.IsSource sel rel := by
  have hspelling := (within_of_find hp).spelled
  have hl := wellFormed_of_find hp
  have hselected : ∀ {dirs : List Bytes} {n : Bytes} {node : Node},
      l.at? (dirs ++ [n]) = some node →
        (sel.hasExtension (p.descend (dirs ++ [n])) = true ↔ sel.Selects n) := by
    intro dirs n node hat
    rw [Selection.hasExtension_iff,
      Path.fileName?_descend hspelling (Listing.isName_of_at? hl hat)]
    simp
  rw [l.mem_walk_iff sel q p hl]
  constructor
  · rintro ⟨n, ns, content, readable, hat, rfl, henters, hext⟩
    obtain ⟨dirs, m, hm⟩ := (List.eq_nil_or_concat' (n :: ns)).resolve_left (by simp)
    rw [hm] at hat henters hext ⊢
    refine ⟨dirs ++ [m], rfl, dirs, m, content, readable, rfl, hat, (hselected hat).mp hext,
      fun d hd => ?_⟩
    refine Selection.excludes_eq_false_iff.mp (henters.excludes_dropLast d ?_)
    rwa [List.dropLast_concat]
  · rintro ⟨_, rfl, dirs, n, content, readable, rfl, hat, hselects, hdirs⟩
    have hopen : l.IsOpen dirs := by
      intro ms hms
      obtain ⟨listable, inside, hfolder⟩ := Node.exists_folder_above (q := []) hms hat
      obtain ⟨rfl, -⟩ := hreach ms listable inside hfolder
      exact ⟨inside, hfolder⟩
    obtain ⟨inside, hinside⟩ := hopen dirs (List.prefix_refl dirs)
    have hshort := (within_of_find (hreach dirs true inside hinside).2).short
    have henters := Listing.enters_concat n hspelling
      (fun d hd => Selection.excludes_eq_false_iff.mpr (hdirs d hd)) hshort hopen
    obtain ⟨m, ms, hm⟩ : ∃ m ms, dirs ++ [n] = m :: ms := List.exists_cons_of_ne_nil (by simp)
    have hext := (hselected hat).mpr hselects
    rw [hm] at hat henters hext ⊢
    exact ⟨m, ms, content, readable, hat, rfl, henters, hext⟩

end

/-- **Collecting** does not depend on the order in which directories are listed. -/
theorem Reordered.collect_eq {t t' : FileTree} (h : t.Reordered t') (sel : Selection) (p : Path) :
    t'.collect sel p = t.collect sel p := by
  rcases h.find_cases p with hsame | ⟨listable, l, l', hfind, hfind', hl⟩
  · rw [collect, collect, hsame]
  · cases listable with
    | false =>
      rw [collect, collect, hfind, hfind']
      rfl
    | true =>
      rw [collect_of_find hfind, collect_of_find hfind', mergeSort_eq_of_perm Path.le_iff
        (pairwise_walk_of_find hfind) (hl.walk_perm sel p)]

/-- **What is collected at a path.**  A file is collected if its name is selected.  Where there is
neither a file nor a directory, collecting fails, and so it does at a directory that cannot be
listed.  At a directory whose directories are all reached, exactly the source files are collected,
in the order of paths and each once.  In which order the directories are listed makes no
difference. -/
theorem collect_exact (t : FileTree) (sel : Selection) (p : Path) :
    (∀ content readable, t.find p = .ok (.file content readable) → ∃ ps, t.collect sel p = .ok ps ∧
      ((∃ n, p.fileName? = some n ∧ sel.Selects n) ∧ ps = [p] ∨
        ¬(∃ n, p.fileName? = some n ∧ sel.Selects n) ∧ ps = [])) ∧
    (∀ fault, t.find p = .error fault → t.collect sel p = .error (.notDirectory p)) ∧
    (∀ l, t.find p = .ok (.folder false l) → t.collect sel p = .error (listingDenied p)) ∧
    (∀ l, t.find p = .ok (.folder true l) → t.ReachesAll p l →
      ∃ ps, t.collect sel p = .ok ps ∧ ps.Pairwise Path.Before ∧
        (∀ rel, (∀ n ∈ rel, Component.IsName n) → (p.descend rel ∈ ps ↔ l.IsSource sel rel)) ∧
        ∀ q ∈ ps, ∃ rel, (∀ n ∈ rel, Component.IsName n) ∧ q = p.descend rel) ∧
    ∀ t' : FileTree, t.Reordered t' → t'.collect sel p = t.collect sel p := by
  refine ⟨fun content readable hp => ?_, fun fault hp => ?_, fun l hp => ?_, fun l hp hreach => ?_,
    fun t' h => h.collect_eq sel p⟩
  · refine ⟨if sel.hasExtension p then [p] else [], by rw [collect, hp], ?_⟩
    rw [← Selection.hasExtension_iff]
    split
    · next hext => exact .inl ⟨hext, rfl⟩
    · next hext => exact .inr ⟨hext, rfl⟩
  · rw [collect, hp]
  · rw [collect, hp]
    rfl
  · have hspelling := (within_of_find hp).spelled
    have hmem : ∀ {q : Path}, q ∈ (l.walk sel p).mergeSort Path.le ↔
        ∃ rel, q = p.descend rel ∧ l.IsSource sel rel :=
      List.mem_mergeSort.trans (mem_walk_iff_isSource hp hreach)
    have hnames : ∀ {rel : Place}, l.IsSource sel rel → ∀ n ∈ rel, Component.IsName n := by
      rintro rel ⟨dirs, n, content, readable, -, hat, -⟩
      exact Listing.isName_of_at? (wellFormed_of_find hp) hat
    refine ⟨_, collect_of_find hp, ?_, fun rel hrel => ⟨fun h => ?_, fun h => ?_⟩, fun q hq => ?_⟩
    · exact (pairwise_mergeSort_lt Path.le_iff (pairwise_walk_of_find hp)).imp Path.key_lt_iff.mp
    · obtain ⟨rel', heq, hsource⟩ := hmem.mp h
      rwa [Path.descend_injective hspelling hrel (hnames hsource)
        (congrArg Path.components heq)]
    · exact hmem.mpr ⟨rel, rfl, h⟩
    · obtain ⟨rel, rfl, hsource⟩ := hmem.mp hq
      exact ⟨rel, hnames hsource, rfl⟩

/-- A directory with the files `lib.TCL`, `lib/a.tcl` and `target/b.tcl`, and a link to the first of
them. -/
def sourceListing : Listing :=
  .leaf (Text.utf8 "lib.TCL".toList) (.file [] true)
    (.leaf (Text.utf8 "link.tcl".toList) (.link (.ofText "lib.TCL".toList))
      (.folder (Text.utf8 "lib".toList) true
        (.leaf (Text.utf8 "a.tcl".toList) (.file [] true) .nil)
        (.folder (Text.utf8 "target".toList) true
          (.leaf (Text.utf8 "b.tcl".toList) (.file [] true) .nil) .nil)))

/-- The tree in which this is the directory `ws`. -/
def sourceTree : FileTree where
  top := .folder (Text.utf8 "ws".toList) true sourceListing .nil
  workingDir := []
  wellFormed := by decide +kernel

theorem find_sourceTree :
    sourceTree.find (.ofText "ws".toList) = .ok (.folder true sourceListing) := by
  decide +kernel

theorem reachesAll_sourceTree : sourceTree.ReachesAll (.ofText "ws".toList) sourceListing := by
  -- the two directories inside hold a single file each, and no directory
  have hleaf : ∀ {k : Bytes} {a : Leaf} {ns : Place} {listable : Bool} {inside : Listing},
      (Node.folder true (.leaf k a .nil)).at? ns = some (.folder listable inside) →
        ns = [] ∧ true = listable ∧ .leaf k a .nil = inside := by
    rintro k a (_ | ⟨n, ns⟩) listable inside h
    · obtain ⟨hlistable, hinside⟩ := Node.folder.inj (Option.some.inj h)
      exact ⟨rfl, hlistable, hinside⟩
    · rw [Node.at?_folder_cons, Listing.find?] at h
      split at h
      · rcases ns with _ | ⟨m, ns⟩ <;> exact absurd h (by simp [Node.at?])
      · exact absurd h (by simp [Listing.find?])
  rintro (_ | ⟨n, ns⟩) listable inside h
  · obtain ⟨rfl, rfl⟩ := Node.folder.inj (Option.some.inj h)
    exact ⟨rfl, find_sourceTree⟩
  · rw [Listing.at?_cons] at h
    simp only [sourceListing, Listing.find?] at h
    split at h
    · rcases ns with _ | ⟨m, ns⟩ <;> exact absurd h (by simp [Node.at?])
    split at h
    · rcases ns with _ | ⟨m, ns⟩ <;> exact absurd h (by simp [Node.at?])
    split at h
    · next hn =>
      obtain ⟨rfl, rfl, rfl⟩ := hleaf h
      exact hn ▸ ⟨rfl, by decide +kernel⟩
    split at h
    · next hn =>
      obtain ⟨rfl, rfl, rfl⟩ := hleaf h
      exact hn ▸ ⟨rfl, by decide +kernel⟩
    · exact absurd h (by simp)

theorem selects_lib : Selection.nowhere.Selects (Text.utf8 "lib.TCL".toList) :=
  ⟨"TCL".toList, ⟨Text.utf8 "lib".toList, by decide +kernel, by decide +kernel, by decide +kernel⟩,
    "tcl".toList, by decide, by decide⟩

theorem selects_a : Selection.nowhere.Selects (Text.utf8 "a.tcl".toList) :=
  ⟨"tcl".toList, ⟨Text.utf8 "a".toList, by decide +kernel, by decide +kernel, by decide +kernel⟩,
    "tcl".toList, by decide, by decide⟩

/-- What is collected in this tree: in `ws` the two files outside its directory `target`. -/
theorem collect_exact_sources :
    sourceTree.collect .nowhere (.ofText "ws/lib.TCL".toList) =
      .ok [.ofText "ws/lib.TCL".toList] ∧
    sourceTree.collect .nowhere (.ofText "lib".toList) =
      .error (.notDirectory (.ofText "lib".toList)) ∧
    ∃ ps, sourceTree.collect .nowhere (.ofText "ws".toList) = .ok ps ∧ ps.Pairwise Path.Before ∧
      .ofText "ws/lib.TCL".toList ∈ ps ∧ .ofText "ws/lib/a.tcl".toList ∈ ps ∧
      .ofText "ws/link.tcl".toList ∉ ps ∧ .ofText "ws/target/b.tcl".toList ∉ ps := by
  refine ⟨?_, (collect_exact _ _ _).2.1 .absent (by decide +kernel), ?_⟩
  · obtain ⟨ps, hps, ⟨-, rfl⟩ | ⟨hnot, -⟩⟩ := (collect_exact sourceTree .nowhere
      (.ofText "ws/lib.TCL".toList)).1 [] true (by decide +kernel)
    · exact hps
    · exact absurd ⟨_, by decide +kernel, selects_lib⟩ hnot
  · obtain ⟨ps, hps, hsorted, hmem, -⟩ := (collect_exact sourceTree .nowhere
      (.ofText "ws".toList)).2.2.2.1 sourceListing find_sourceTree reachesAll_sourceTree
    have hsource : ∀ (rel : Place) (q : Path), (∀ n ∈ rel, Component.IsName n) →
        (Path.ofText "ws".toList).descend rel = q →
          (q ∈ ps ↔ sourceListing.IsSource .nowhere rel) := by
      rintro rel _ hrel rfl
      exact hmem rel hrel
    refine ⟨ps, hps, hsorted, ?_, ?_, fun h => ?_, fun h => ?_⟩
    · exact (hsource [Text.utf8 "lib.TCL".toList] _ (by decide +kernel) (by decide +kernel)).mpr
        ⟨[], _, [], true, rfl, by decide +kernel, selects_lib, by simp⟩
    · exact (hsource [Text.utf8 "lib".toList, Text.utf8 "a.tcl".toList] _ (by decide +kernel)
        (by decide +kernel)).mpr ⟨[Text.utf8 "lib".toList], _, [], true, rfl, by decide +kernel,
          selects_a, by decide +kernel⟩
    · obtain ⟨_, _, content, readable, -, hfile, -⟩ :=
        (hsource [Text.utf8 "link.tcl".toList] _ (by decide +kernel) (by decide +kernel)).mp h
      have hlink : sourceListing.at? [Text.utf8 "link.tcl".toList] =
          some (.leaf (.link (.ofText "lib.TCL".toList))) := by decide +kernel
      exact absurd (hlink.symm.trans hfile) (by simp)
    · obtain ⟨dirs, n, _, _, hrel, -, -, hdirs⟩ :=
        (hsource [Text.utf8 "target".toList, Text.utf8 "b.tcl".toList] _ (by decide +kernel)
          (by decide +kernel)).mp h
      have hdir : [Text.utf8 "target".toList] = dirs :=
        (congrArg List.dropLast hrel).trans List.dropLast_concat
      exact hdirs _ (hdir ▸ List.mem_cons_self) "target".toList (by decide) rfl

end FileTree

end TclAtlas
