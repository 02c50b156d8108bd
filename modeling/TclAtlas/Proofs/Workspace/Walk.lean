import TclAtlas.Proofs.Workspace.Following
import TclAtlas.Proofs.Workspace.Loading
import TclAtlas.Workspace.Loading
import Mathlib.Data.List.Infix

/-!
# Proofs/Workspace/Walk — which files a walk comes across

A walk goes down from a directory, through all directories below it that are not excluded and can be
listed.  It lists the files with a selected extension that are there by their entries
(`Listing.mem_walk_iff`), and reads them afterwards by their paths.  For a workspace with a single
search path this says which texts are loaded (`FileTree.textAt?_eq_some_iff`).

An event has a file read by its path, through whatever is on the way.  Where that are directories
that can be listed, and no links, the walk gets to the file as well (`FileTree.textAt?_of_accepts`).
-/

namespace TclAtlas

/-! ## Walking -/

namespace Listing

/-- **What is at a place** below a directory with the given listing. -/
def at? (l : Listing) (ns : Place) : Option Node := (Node.folder true l).at? ns

theorem at?_cons (l : Listing) (n : Bytes) (ns : Place) :
    l.at? (n :: ns) = (l.find? n).bind (·.at? ns) := Node.at?_folder_cons true l n ns

/-- Going on from a directory. -/
theorem at?_of_folder {root : Node} {q : Place} {listable : Bool} {l : Listing}
    (hat : root.at? q = some (.folder listable l)) {ns : Place} (hne : ns ≠ []) :
    root.at? (q ++ ns) = l.at? ns := by
  obtain ⟨n, ns, rfl⟩ := List.exists_cons_of_ne_nil hne
  rw [Node.at?_append, hat, Option.bind_some, Node.at?_folder_cons, at?_cons]

/-- The names that lead down to something are names that entries have. -/
theorem isEntryName_of_at? {l : Listing} (hl : l.WellFormed) {ns : Place} {node : Node}
    (h : l.at? ns = some node) : ∀ n ∈ ns, isEntryName n = true := by
  have hfolder : (Node.folder true l).WellFormed := hl
  exact (hfolder.of_at? h).1

theorem isName_of_at? {l : Listing} (hl : l.WellFormed) {ns : Place} {node : Node}
    (h : l.at? ns = some node) : ∀ n ∈ ns, Component.IsName n :=
  fun n hn => Component.isName_of_isEntryName (isEntryName_of_at? hl h n hn)

/-- **Whether a walk enters the directories on the way down**: they are there and can be listed,
none of them is excluded, and the path of none gets too long. -/
def Enters (sel : Selection) : (base : Path) → Listing → List Bytes → Prop
  | _, _, [] | _, _, [_] => True
  | base, l, n :: m :: ns =>
    sel.excludes n = false ∧ (base.join n).isTooLong = false ∧
      ∃ inside, l.find? n = some (.folder true inside) ∧
        Enters sel (base.join n) inside (m :: ns)

/-- **A walk comes across a path**: names lead down to a file through directories that are entered,
and the path has a selected extension. -/
def Meets (sel : Selection) (base : Path) (l : Listing) (q : Path) : Prop :=
  ∃ n ns content readable, l.at? (n :: ns) = some (.leaf (.file content readable)) ∧
    q = base.descend (n :: ns) ∧ l.Enters sel base (n :: ns) ∧ sel.hasExtension q = true

end Listing

/-- **A walk comes across a path at an entry** of the given name. -/
def Node.Meets (sel : Selection) (base : Path) (n : Bytes) (q : Path) : Node → Prop
  | leaf (.file _ _) => q = base.join n ∧ sel.hasExtension q = true
  | leaf (.link _) => False
  | folder listable inside =>
    listable = true ∧ sel.excludes n = false ∧ (base.join n).isTooLong = false ∧
      inside.Meets sel (base.join n) q

namespace Listing

variable {sel : Selection} {base q : Path}

/-- **A walk comes across what it meets at its entries.** -/
theorem meets_iff {l : Listing} : l.Meets sel base q ↔
    ∃ n node, l.find? n = some node ∧ node.Meets sel base n q := by
  constructor
  · rintro ⟨n, ns, content, readable, hat, rfl, henters, hext⟩
    rw [at?_cons] at hat
    obtain ⟨node, hfind, hat⟩ := Option.bind_eq_some_iff.mp hat
    refine ⟨n, node, hfind, ?_⟩
    rcases ns with _ | ⟨m, ns⟩
    · rw [Node.at?_nil] at hat
      obtain rfl := Option.some.inj hat
      exact ⟨rfl, hext⟩
    · obtain ⟨hexcluded, hshort, inside, hinside, henters⟩ := henters
      obtain rfl : .folder true inside = node := Option.some.inj (hinside.symm.trans hfind)
      exact ⟨rfl, hexcluded, hshort, m, ns, content, readable, hat, rfl, henters, hext⟩
  · rintro ⟨n, (⟨content, readable⟩ | target) | ⟨listable, inside⟩, hfind, hmeets⟩
    · obtain ⟨rfl, hext⟩ := hmeets
      exact ⟨n, [], content, readable, by rw [at?_cons, hfind]; rfl, rfl, trivial, hext⟩
    · exact hmeets.elim
    · obtain ⟨rfl, hexcluded, hshort, m, ns, content, readable, hat, rfl, henters, hext⟩ := hmeets
      exact ⟨n, m :: ns, content, readable, by rw [at?_cons, hfind]; exact hat, rfl,
        ⟨hexcluded, hshort, inside, hfind, henters⟩, hext⟩

theorem find?_eq_none_of_not_mem {n : Bytes} : ∀ {l : Listing}, n ∉ l.names → l.find? n = none
  | nil, _ => rfl
  | leaf m a rest, h => by
    obtain ⟨hne, hrest⟩ := not_or.mp (List.mem_cons.not.mp h)
    rw [find?, if_neg (Ne.symm hne), find?_eq_none_of_not_mem hrest]
  | folder m listable inside rest, h => by
    obtain ⟨hne, hrest⟩ := not_or.mp (List.mem_cons.not.mp h)
    rw [find?, if_neg (Ne.symm hne), find?_eq_none_of_not_mem hrest]

theorem meets_entry_iff (sel : Selection) (base q : Path) {n : Bytes} (node : Node)
    {rest : Listing} (hn : n ∉ rest.names) : (entry n node rest).Meets sel base q ↔
      node.Meets sel base n q ∨ rest.Meets sel base q := by
  rw [meets_iff, meets_iff]
  constructor
  · rintro ⟨m, node', hfind, hmeets⟩
    rw [find?_entry] at hfind
    split at hfind
    · next hm => exact .inl (hm ▸ Option.some.inj hfind ▸ hmeets)
    · exact .inr ⟨m, node', hfind, hmeets⟩
  · rintro (hmeets | ⟨m, node', hfind, hmeets⟩)
    · exact ⟨n, node, by rw [find?_entry, if_pos rfl], hmeets⟩
    · have hne : n ≠ m := by
        rintro rfl
        exact absurd ((find?_eq_none_of_not_mem hn).symm.trans hfind) (by simp)
      exact ⟨m, node', by rw [find?_entry, if_neg hne, hfind], hmeets⟩

/-- **A walk lists the selected files below a directory** as far as it enters the directories. -/
theorem mem_walk_iff (sel : Selection) (q : Path) : ∀ (l : Listing) (base : Path), l.WellFormed →
    (q ∈ l.walk sel base ↔ l.Meets sel base q)
  | nil, _, _ => by simp [walk, meets_iff, find?]
  | leaf n (.file content readable) rest, base, ⟨_, hn, hrest⟩ => by
    have hmeets := meets_entry_iff sel base q (.leaf (.file content readable)) hn
    rw [walk, List.mem_append, mem_walk_iff sel q rest base hrest]
    refine Iff.trans (or_congr_left ?_) hmeets.symm
    split
    · next hext =>
      rw [List.mem_singleton]
      exact ⟨fun hq => ⟨hq, hq ▸ hext⟩, And.left⟩
    · next hext =>
      exact ⟨fun hq => absurd hq List.not_mem_nil, fun hq => absurd (hq.1 ▸ hq.2) hext⟩
  | leaf n (.link target) rest, base, ⟨_, hn, hrest⟩ => by
    have hmeets := meets_entry_iff sel base q (.leaf (.link target)) hn
    rw [walk, mem_walk_iff sel q rest base hrest]
    exact ⟨fun h => hmeets.mpr (.inr h), fun h => (hmeets.mp h).resolve_left id⟩
  | folder n listable inside rest, base, ⟨_, hn, hinside, hrest⟩ => by
    have hmeets := meets_entry_iff sel base q (.folder listable inside) hn
    rw [walk, List.mem_append, mem_walk_iff sel q rest base hrest]
    refine Iff.trans (or_congr_left ?_) hmeets.symm
    split
    · next hclosed =>
      refine ⟨fun hq => absurd hq List.not_mem_nil, fun hmeets => ?_⟩
      obtain ⟨hlistable, hexcluded, hshort, -⟩ := hmeets
      exact absurd hclosed (by simp [hlistable, hexcluded, hshort])
    · next hopen =>
      rw [mem_walk_iff sel q inside (base.join n) hinside]
      have hgo : listable = true ∧ sel.excludes n = false ∧ (base.join n).isTooLong = false := by
        simpa [and_assoc, and_comm, and_left_comm] using hopen
      exact ⟨fun h => ⟨hgo.1, hgo.2.1, hgo.2.2, h⟩, fun h => h.2.2.2⟩

/-! ## Getting to a file -/

theorem enters_cons_iff {l : Listing} {n : Bytes} {ns : List Bytes} (hne : ns ≠ []) :
    l.Enters sel base (n :: ns) ↔ sel.excludes n = false ∧ (base.join n).isTooLong = false ∧
      ∃ inside, l.find? n = some (.folder true inside) ∧ inside.Enters sel (base.join n) ns := by
  obtain ⟨m, ns, rfl⟩ := List.exists_cons_of_ne_nil hne
  exact Iff.rfl

/-- The directories on the way of a walk are not excluded. -/
theorem Enters.excludes_dropLast : ∀ {ns : List Bytes} {base : Path} {l : Listing},
    l.Enters sel base ns → ∀ n ∈ ns.dropLast, sel.excludes n = false
  | [], _, _, _ => by simp
  | [_], _, _, _ => by simp
  | n :: m :: ns, _, _, ⟨hn, _, _, _, hns⟩ => by
    rw [List.dropLast_cons_cons]
    exact List.forall_mem_cons.mpr ⟨hn, hns.excludes_dropLast⟩

/-- **The directories on the way down are there** and can be listed. -/
def IsOpen (l : Listing) (dirs : Place) : Prop :=
  ∀ ms, ms <+: dirs → ∃ inside, l.at? ms = some (.folder true inside)

theorem IsOpen.tail {l : Listing} {d : Bytes} {dirs : Place} (h : l.IsOpen (d :: dirs)) :
    ∃ inside, l.find? d = some (.folder true inside) ∧ inside.IsOpen dirs := by
  obtain ⟨inside, hd⟩ := h [d] (List.prefix_append [d] dirs)
  rw [at?_cons] at hd
  obtain ⟨node, hfind, hnode⟩ := Option.bind_eq_some_iff.mp hd
  rw [Node.at?_nil] at hnode
  obtain rfl := Option.some.inj hnode
  refine ⟨inside, hfind, fun ms hms => ?_⟩
  obtain ⟨below, hbelow⟩ := h (d :: ms) (List.cons_prefix_cons.mpr ⟨rfl, hms⟩)
  rw [at?_cons, hfind] at hbelow
  exact ⟨below, hbelow⟩

/-- The directories on the way of a walk are open to it. -/
theorem Enters.isOpen : ∀ {ns : List Bytes} {base : Path} {l : Listing},
    l.Enters sel base ns → l.IsOpen ns.dropLast
  | [], _, l, _ | [_], _, l, _ => fun ms hms => by
    obtain rfl := List.prefix_nil.mp hms
    exact ⟨l, Node.at?_nil _⟩
  | n :: m :: ns, _, l, ⟨_, _, inside, hfind, hns⟩ => fun ms hms => by
    rw [List.dropLast_cons_cons] at hms
    rcases List.prefix_cons_iff.mp hms with rfl | ⟨ks, rfl, hks⟩
    · exact ⟨l, Node.at?_nil _⟩
    · obtain ⟨below, hbelow⟩ := hns.isOpen ks hks
      exact ⟨below, by rw [at?_cons, hfind, Option.bind_some]; exact hbelow⟩

/-- **A walk gets down** through directories that are open to it, unless one of them is excluded or
their path gets too long. -/
theorem enters_concat (n : Bytes) : ∀ {dirs : List Bytes} {base : Path} {l : Listing},
    base.spelling ≠ [] → (∀ d ∈ dirs, sel.excludes d = false) →
      (base.descend dirs).isTooLong = false → l.IsOpen dirs → l.Enters sel base (dirs ++ [n])
  | [], _, _, _, _, _, _ => trivial
  | d :: dirs, base, l, hbase, hdirs, hshort, hopen => by
    obtain ⟨hd, hdirs⟩ := List.forall_mem_cons.mp hdirs
    obtain ⟨inside, hfind, hopen⟩ := hopen.tail
    have hjoin : (base.join d).spelling ≠ [] := Path.spelling_join_ne_nil hbase d
    rw [List.cons_append, enters_cons_iff (by simp)]
    exact ⟨hd, Path.isTooLong_of_descend hjoin dirs hshort, inside, hfind,
      enters_concat n hjoin hdirs hshort hopen⟩

end Listing

/-! ## The texts of a workspace -/

namespace FileTree

theorem read_eq_ok_iff {t : FileTree} {p : Path} {text : Text} :
    (t.read p).toOption = some text ↔
      ∃ content, t.find p = .ok (.file content true) ∧ Text.ofUtf8? content = some text := by
  rw [read]
  rcases t.find p with fault | ⟨content, _ | _⟩ | ⟨listable, l⟩
  · simp [Except.toOption]
  · simp [Except.toOption]
  · rcases htext : Text.ofUtf8? content with _ | text' <;> simp [Except.toOption, htext]
  · simp [Except.toOption]

section

variable {t : FileTree} {sel : Selection} {r : Path} {l : Listing} {listable : Bool}

theorem wellFormed_of_find (hr : t.find r = .ok (.folder listable l)) : l.WellFormed := by
  obtain ⟨q, -, hat⟩ := find_eq_folder_iff.mp hr
  exact (t.wellFormed_root.of_at? hat).2

variable (hr : t.find r = .ok (.folder true l))

include hr

theorem collect_of_find : t.collect sel r = .ok ((l.walk sel r).mergeSort Path.le) := by
  rw [collect, hr]
  rfl

/-- Where a file lies in the directory, the path that leads to it by names leads to a file with that
content, unless it is too long. -/
theorem find_descend_eq_file_iff {ns : List Bytes} (hne : ns ≠ []) {content content' : Bytes}
    {readable readable' : Bool} (hat : l.at? ns = some (.leaf (.file content readable))) :
    t.find (r.descend ns) = .ok (.file content' readable') ↔
      (r.descend ns).isTooLong = false ∧ l.at? ns = some (.leaf (.file content' readable')) := by
  obtain ⟨q, hgoes, hq⟩ := exists_goesTo hr
  have hroot := Listing.at?_of_folder hq hne
  rw [← hroot]
  exact hgoes.find_descend_eq_file_iff (Listing.isName_of_at? (wellFormed_of_find hr) hat) hne
    (Node.direct_of_file (hroot.trans hat))

variable (hsel : sel.searchPaths = [r])

include hsel

theorem paths_of_find :
    source.paths t sel = ((l.walk sel r).mergeSort Path.le).eraseDupsBy Path.same := by
  rw [FileSource.paths, hsel, List.map_singleton, source_collect, collect_of_find hr, Path.merge,
    List.flatten_singleton]
  rfl

/-- A walk that comes across its paths in order, each once. -/
theorem paths_of_walk {ps : List Path} (hwalk : l.walk sel r = ps)
    (hsorted : ps.Pairwise fun p q => p.le q = true) (hmerged : ps.eraseDupsBy Path.same = ps) :
    source.paths t sel = ps := by
  rw [paths_of_find hr hsel, hwalk, List.mergeSort_of_pairwise hsorted, hmerged]

/-- **With a single search path** the paths of a workspace are those of the walk. -/
theorem mem_paths_iff (p : Path) : p ∈ t.paths sel ↔ l.Meets sel r p := by
  have hspelling := (within_of_find hr).spelled
  have hl := wellFormed_of_find hr
  rw [paths, paths_of_find hr hsel]
  constructor
  · intro h
    exact (l.mem_walk_iff sel p r hl).mp (List.mem_mergeSort.mp (Path.mem_of_mem_eraseDupsBy h))
  · intro h
    have hmem : p ∈ (l.walk sel r).mergeSort Path.le :=
      List.mem_mergeSort.mpr ((l.mem_walk_iff sel p r hl).mpr h)
    obtain ⟨q, hq, hsame⟩ := Path.exists_mem_eraseDupsBy hmem
    have hmeets : l.Meets sel r q :=
      (l.mem_walk_iff sel q r hl).mp (List.mem_mergeSort.mp (Path.mem_of_mem_eraseDupsBy hq))
    obtain ⟨n, ns, _, _, hat, rfl, -⟩ := h
    obtain ⟨m, ms, _, _, hat', rfl, -⟩ := hmeets
    have hnames : n :: ns = m :: ms := Path.descend_injective hspelling
      (Listing.isName_of_at? hl hat) (Listing.isName_of_at? hl hat') (eq_of_beq hsame)
    rwa [hnames]

/-- A file that the walk gets to is among the paths. -/
theorem descend_mem_paths {dirs : List Bytes} {n : Bytes} {content : Bytes} {readable : Bool}
    (hexcluded : ∀ d ∈ dirs, sel.excludes d = false) (hopen : l.IsOpen dirs)
    (hext : sel.hasExtension (r.descend (dirs ++ [n])) = true)
    (hshort : (r.descend (dirs ++ [n])).isTooLong = false)
    (hat : l.at? (dirs ++ [n]) = some (.leaf (.file content readable))) :
    r.descend (dirs ++ [n]) ∈ source.paths t sel := by
  have hspelling := (within_of_find hr).spelled
  have hdirs : (r.descend dirs).isTooLong = false := by
    rw [Path.descend_concat] at hshort
    exact Path.isTooLong_of_descend (Path.spelling_descend_ne_nil hspelling dirs) [n] hshort
  have henters := Listing.enters_concat n hspelling hexcluded hdirs hopen
  refine (mem_paths_iff hr hsel _).mpr ?_
  obtain ⟨m, ms, hm⟩ : ∃ m ms, dirs ++ [n] = m :: ms := List.exists_cons_of_ne_nil (by simp)
  rw [hm] at hat henters hext ⊢
  exact ⟨m, ms, content, readable, hat, rfl, henters, hext⟩

/-- **The texts of a workspace with a single search path**, in terms of what is in the directory
there. -/
theorem textAt?_eq_some_iff (p : Path) (text : Text) : source.textAt? t sel p = some text ↔
    ∃ dirs n content, p = r.descend (dirs ++ [n]) ∧ (∀ d ∈ dirs, sel.excludes d = false) ∧
      l.IsOpen dirs ∧ sel.hasExtension p = true ∧ p.isTooLong = false ∧
        l.at? (dirs ++ [n]) = some (.leaf (.file content true)) ∧
          Text.ofUtf8? content = some text := by
  rw [FileSource.textAt?]
  constructor
  · intro h
    split at h
    · next hp =>
      obtain ⟨n, ns, content, readable, hat, rfl, henters, hext⟩ := (mem_paths_iff hr hsel p).mp hp
      obtain ⟨content', hread, htext⟩ := read_eq_ok_iff.mp h
      obtain ⟨hshort, hat'⟩ :=
        (find_descend_eq_file_iff hr (List.cons_ne_nil n ns) hat).mp hread
      have hexcluded := henters.excludes_dropLast
      have hopen := henters.isOpen
      obtain ⟨dirs, m, hm⟩ := (List.eq_nil_or_concat' (n :: ns)).resolve_left (by simp)
      rw [hm, List.dropLast_concat] at hexcluded hopen
      rw [hm] at hat' hext hshort ⊢
      exact ⟨dirs, m, content', rfl, hexcluded, hopen, hext, hshort, hat', htext⟩
    · exact absurd h (by simp)
  · rintro ⟨dirs, n, content, rfl, hexcluded, hopen, hext, hshort, hat, htext⟩
    rw [if_pos (descend_mem_paths hr hsel hexcluded hopen hext hshort hat)]
    exact read_eq_ok_iff.mpr
      ⟨content, (find_descend_eq_file_iff hr (by simp) hat).mpr ⟨hshort, hat⟩, htext⟩

end

end FileTree

/-! ## What events are about -/

namespace Listing

/-- **No link is on the way down.** -/
def Linkless (l : Listing) (ns : Place) : Prop :=
  ∀ ms, ms <+: ns → ∀ target, l.at? ms ≠ some (.leaf (.link target))

/-- **The directories on the way down can be listed**, as far as they are there. -/
def Listable (l : Listing) (ns : Place) : Prop :=
  ∀ ms, ms <+: ns → ms ≠ ns → ∀ listable inside,
    l.at? ms = some (.folder listable inside) → listable = true

/-- **The way down is clear** for a walk. -/
structure Clear (l : Listing) (ns : Place) : Prop where
  link : l.Linkless ns
  listable : l.Listable ns

/-- Whether a link is at a place. -/
def isLink : Option Node → Bool
  | some (.leaf (.link _)) => true
  | _ => false

/-- Whether a directory that cannot be listed is at a place. -/
def isClosed : Option Node → Bool
  | some (.folder false _) => true
  | _ => false

theorem linkless_iff {l : Listing} {ns : Place} :
    l.Linkless ns ↔ ∀ ms ∈ ns.inits, isLink (l.at? ms) = false := by
  refine forall_congr' fun ms => imp_congr (List.mem_inits ms ns).symm ?_
  rcases l.at? ms with _ | ((⟨content, readable⟩ | target) | ⟨listable, inside⟩) <;> simp [isLink]

theorem listable_iff {l : Listing} {ns : Place} :
    l.Listable ns ↔ ∀ ms ∈ ns.inits, ms ≠ ns → isClosed (l.at? ms) = false := by
  refine forall_congr' fun ms => imp_congr (List.mem_inits ms ns).symm (imp_congr_right fun _ => ?_)
  rcases l.at? ms with _ | ((⟨content, readable⟩ | target) | ⟨_ | _, inside⟩) <;> simp [isClosed]

instance (l : Listing) (ns : Place) : Decidable (l.Linkless ns) :=
  decidable_of_iff' _ linkless_iff

instance (l : Listing) (ns : Place) : Decidable (l.Listable ns) :=
  decidable_of_iff' _ listable_iff

instance (l : Listing) (ns : Place) : Decidable (l.Clear ns) :=
  decidable_of_iff (l.Linkless ns ∧ l.Listable ns) ⟨fun h => ⟨h.1, h.2⟩, fun h => ⟨h.1, h.2⟩⟩

/-- **Clear ways to files** are open to walks. -/
theorem Clear.isOpen {l : Listing} {dirs : Place} {n : Bytes} (h : l.Clear (dirs ++ [n]))
    {node : Node} (hat : l.at? (dirs ++ [n]) = some node) : l.IsOpen dirs := by
  intro ms hms
  obtain ⟨listable, inside, hfolder⟩ := Node.exists_folder_above (q := []) hms hat
  obtain rfl := h.listable ms (hms.trans (List.prefix_append dirs [n]))
    (Node.ne_concat_of_isPrefix hms) listable inside hfolder
  exact ⟨inside, hfolder⟩

end Listing

namespace FileTree

variable {t : FileTree} {sel : Selection} {r : Path} {l : Listing}

/-- **Below a directory** a clear way is one without links. -/
theorem exists_goesTo_of_clear (hr : t.find r = .ok (.folder true l)) {ns : List Bytes}
    (hclear : l.Clear ns) :
    ∃ q, t.GoesTo r q ∧ t.root.at? q = some (.folder true l) ∧ t.root.Direct q ns := by
  obtain ⟨q, hgoes, hq⟩ := exists_goesTo hr
  refine ⟨q, hgoes, hq, fun ms hms target hlink => ?_⟩
  rcases eq_or_ne ms [] with rfl | hms'
  · rw [List.append_nil, hq] at hlink
    exact absurd hlink (by simp)
  · rw [Listing.at?_of_folder hq hms'] at hlink
    exact hclear.link ms hms target hlink

/-- **An accepted path has the text that reading it gives**, where the way to it is clear: the walk
gets to every file that an event may be about. -/
theorem textAt?_of_accepts (hr : t.find r = .ok (.folder true l)) (hsel : sel.searchPaths = [r])
    {ns : List Bytes} (hns : ∀ n ∈ ns, Component.IsName n) (hne : ns ≠ []) (hclear : l.Clear ns)
    (hp : sel.accepts (r.descend ns) = true) :
    source.textAt? t sel (r.descend ns) = (t.read (r.descend ns)).toOption := by
  have hspelling := (within_of_find hr).spelled
  obtain ⟨hext, hexcluded⟩ := (Selection.accepts_descend_iff hsel hspelling hns).mp hp
  obtain ⟨q, hgoes, hq, hdirect⟩ := exists_goesTo_of_clear hr hclear
  refine Option.ext fun text => ⟨fun h => ?_, fun h => ?_⟩
  · rw [FileSource.textAt?] at h
    split at h
    · exact h
    · exact absurd h (by simp)
  · obtain ⟨content, hfind, htext⟩ := read_eq_ok_iff.mp h
    obtain ⟨hshort, hat⟩ := (hgoes.find_descend_eq_file_iff hns hne hdirect).mp hfind
    rw [Listing.at?_of_folder hq hne] at hat
    obtain ⟨dirs, n, rfl⟩ := (List.eq_nil_or_concat' ns).resolve_left hne
    exact (textAt?_eq_some_iff hr hsel _ text).mpr ⟨dirs, n, content, rfl,
      fun d hd => hexcluded d (List.mem_append_left _ hd), hclear.isOpen hat, hext, hshort, hat,
      htext⟩

end FileTree

end TclAtlas
