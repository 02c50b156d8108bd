import TclAtlas.Curator
import TclAtlas.Proofs.Workspace.Walk

/-!
# Proofs/Workspace/Edits — what an edit of one file does to a workspace

An edit writes or deletes one file and comes with the event that reports it.  The directories on the
way to the file are made if they are missing; apart from that, and from the file itself, everything
stays (`Node.SameBut`).  So in a workspace with a single search path an edit below it changes the
text of its own path only (`FileTree.textAt?_apply_of_ne`); what a path has after a deletion is no
text (`FileTree.read_apply_delete`).
-/

namespace TclAtlas

/-- **An edit of a single file.** -/
inductive FileEdit
  | create (path : Path) (content : Bytes)
  | change (path : Path) (content : Bytes)
  | delete (path : Path)

namespace FileEdit

/-- The path that the edit is about. -/
def path : FileEdit → Path
  | create p _ | change p _ | delete p => p

/-- The event that reports the edit. -/
def event : FileEdit → FileEvent
  | create p _ => .created p
  | change p _ => .changed p
  | delete p => .deleted p

/-- **The tree after the edit.**  What is no file is not deleted. -/
def apply (t : FileTree) : FileEdit → FileTree
  | create p content | change p content => t.write p content
  | delete p =>
    match t.find p with
    | .ok (.file _ _) => t.remove p
    | _ => t

@[simp] theorem path_event (e : FileEdit) : e.event.path = e.path := by
  rcases e with ⟨p, c⟩ | ⟨p, c⟩ | p <;> rfl

end FileEdit

/-! ## Everything else stays -/

namespace Node

/-- **What differs in one file only**, and in directories made where nothing was. -/
structure SameBut (p : Place) (root root' : Node) : Prop where
  elsewhere : ∀ q ≠ p, Keeps (root.at? q) (root'.at? q)
  here : Keeps (root.at? p) (root'.at? p) ∨ Plain (root.at? p) ∧ Plain (root'.at? p)

namespace SameBut

variable {p : Place} {root root' root'' : Node}

theorem of_keeps (h : ∀ q, Keeps (root.at? q) (root'.at? q)) : SameBut p root root' :=
  ⟨fun q _ => h q, .inl (h p)⟩

theorem cases_at (h : SameBut p root root') (q : Place) :
    Keeps (root.at? q) (root'.at? q) ∨ Plain (root.at? q) ∧ Plain (root'.at? q) := by
  rcases eq_or_ne q p with rfl | hq
  · exact h.here
  · exact .inl (h.elsewhere q hq)

theorem trans (h : ∀ q, Keeps (root.at? q) (root'.at? q)) (h' : SameBut p root' root'') :
    SameBut p root root'' where
  elsewhere q hq := (h q).trans (h'.elsewhere q hq)
  here := h'.here.imp (h p).trans fun ⟨hp, hp'⟩ => ⟨(h p).plain hp, hp'⟩

theorem stays (h : SameBut p root root') : root.Stays root' where
  folder {q listable l} hat := by
    rcases h.cases_at q with hkeeps | ⟨hplain, -⟩
    · exact (hat ▸ hkeeps).of_folder
    · exact absurd (hplain _ hat) (by simp)
  link {q target} hat := by
    rcases h.cases_at q with hkeeps | ⟨hplain, -⟩
    · exact (hat ▸ hkeeps).of_leaf
    · exact absurd (hplain _ hat) (by simp)

/-- Links are not made. -/
theorem link_of_link (h : SameBut p root root') {q : Place} {target : Path}
    (hat : root'.at? q = some (.leaf (.link target))) :
    root.at? q = some (.leaf (.link target)) := by
  rcases h.cases_at q with hkeeps | ⟨-, hplain⟩
  · exact (hkeeps.leaf_iff _).mp hat
  · exact absurd (hplain _ hat) (by simp)

/-- Directories that are made can be listed. -/
theorem folder_of_folder (h : SameBut p root root') {q : Place} {listable : Bool} {l' : Listing}
    (hat : root'.at? q = some (.folder listable l')) :
    listable = true ∨ ∃ l, root.at? q = some (.folder listable l) := by
  rcases h.cases_at q with hkeeps | ⟨-, hplain⟩
  · rw [hat] at hkeeps
    generalize root.at? q = old at hkeeps ⊢
    cases hkeeps with
    | folder _ l _ => exact .inr ⟨l, rfl⟩
    | made _ => exact .inl rfl
  · exact absurd (hplain _ hat) (by simp)

theorem direct (h : SameBut p root root') {q ns : Place} (hdirect : root.Direct q ns) :
    root'.Direct q ns :=
  fun ms hms target hat => hdirect ms hms target (h.link_of_link hat)

/-- **Seen from a directory** above the file, what is below differs in the file only. -/
theorem below {q ns : Place} (h : SameBut (q ++ ns) root root') (hne : ns ≠ []) {listable : Bool}
    {l : Listing} (hat : root.at? q = some (.folder listable l)) :
    ∃ l', root'.at? q = some (.folder listable l') ∧
      SameBut ns (.folder true l) (.folder true l') := by
  obtain ⟨l', hat'⟩ := h.stays.folder hat
  have hbelow : ∀ {ms : Place}, ms ≠ [] → root.at? (q ++ ms) = (folder true l).at? ms ∧
      root'.at? (q ++ ms) = (folder true l').at? ms := fun hms =>
    ⟨Listing.at?_of_folder hat hms, Listing.at?_of_folder hat' hms⟩
  refine ⟨l', hat', fun ms hms => ?_, ?_⟩
  · rcases eq_or_ne ms [] with rfl | hms'
    · rw [at?_nil, at?_nil]
      exact .folder true l l'
    · rw [← (hbelow hms').1, ← (hbelow hms').2]
      exact h.elsewhere _ fun heq => hms (List.append_cancel_left heq)
  · rw [← (hbelow hne).1, ← (hbelow hne).2]
    exact h.here

end SameBut

end Node

namespace Listing

variable {l l' : Listing} {p : Place}

/-- **A way that is clear** stays clear. -/
theorem Clear.mono {ns : Place} (hclear : l.Clear ns)
    (h : Node.SameBut p (.folder true l) (.folder true l')) : l'.Clear ns where
  link ms hms target hat := hclear.link ms hms target (h.link_of_link hat)
  listable ms hms hne listable inside hat := by
    rcases h.folder_of_folder hat with hlistable | ⟨inside', hat'⟩
    · exact hlistable
    · exact hclear.listable ms hms hne listable inside' hat'

/-- **Ways to what is there** are as open as they were. -/
theorem isOpen_iff (h : Node.SameBut p (.folder true l) (.folder true l')) {dirs : Place}
    {n : Bytes} {node : Node} (hat : l.at? (dirs ++ [n]) = some node) :
    l'.IsOpen dirs ↔ l.IsOpen dirs := by
  constructor
  · intro hopen ms hms
    obtain ⟨listable, inside, hfolder⟩ := Node.exists_folder_above (q := []) hms hat
    obtain ⟨inside', hfolder'⟩ := h.stays.folder hfolder
    obtain ⟨below, hbelow⟩ := hopen ms hms
    obtain ⟨rfl, -⟩ := Node.folder.inj (Option.some.inj (hfolder'.symm.trans hbelow))
    exact ⟨inside, hfolder⟩
  · intro hopen ms hms
    obtain ⟨inside, hfolder⟩ := hopen ms hms
    exact h.stays.folder hfolder

end Listing

/-! ## Writing and deleting -/

namespace FileTree

open Node (Keeps SameBut)

theorem keeps_makeWay (p : Path) : ∀ (ss passed : List Bytes) (t : FileTree),
    (t.makeWay p passed ss).workingDir = t.workingDir ∧
      ∀ q, Keeps (t.root.at? q) ((t.makeWay p passed ss).root.at? q)
  | [], _, _ => ⟨rfl, fun _ => .refl _⟩
  | s :: ss, passed, t => by
    rw [makeWay]
    split
    · exact ⟨rfl, fun _ => .refl _⟩
    · next here _ =>
      split
      · exact keeps_makeWay p ss (passed ++ [s]) t
      · obtain ⟨hdir, hkeeps⟩ :=
          keeps_makeWay p ss (passed ++ [s]) (t.makeFolderAt (here ++ [s]))
        exact ⟨hdir.trans (t.workingDir_makeFolderAt _),
          fun q => (t.keeps_makeFolderAt (here ++ [s]) q).trans (hkeeps q)⟩

variable {t : FileTree} {r : Path} {q : Place} (hgoes : t.GoesTo r q) {ns : List Bytes}
  (hns : ∀ n ∈ ns, Component.IsName n) (hne : ns ≠ []) (hdirect : t.root.Direct q ns)

include hgoes hns hne

/-- **Writing a file** changes it only. -/
theorem sameBut_write (hdirect : t.root.Direct q ns) (content : Bytes) :
    (t.write (r.descend ns) content).workingDir = t.workingDir ∧
      SameBut (q ++ ns) t.root (t.write (r.descend ns) content).root := by
  rw [write]
  split
  · exact ⟨rfl, .of_keeps fun _ => .refl _⟩
  · obtain ⟨hdir, hkeeps⟩ := keeps_makeWay (r.descend ns) (r.descend ns).stretches.dropLast [] t
    have hsame : ∀ p, SameBut p t.root _ := fun _ => .of_keeps hkeeps
    simp only
    split
    · exact ⟨hdir, hsame _⟩
    · next p hplace =>
      have hgoes' := hgoes.mono (hsame p).stays hdir
      obtain rfl := hgoes'.eq_append_of_place hns hne ((hsame p).direct hdirect) hplace
      have hput := keeps_putFileAt ((t.makeWay (r.descend ns) []
        (r.descend ns).stretches.dropLast)) content (q ++ ns)
      refine ⟨(workingDir_putFileAt ..).trans hdir, SameBut.trans hkeeps ⟨fun p hp => ?_, ?_⟩⟩
      · exact (hput p).resolve_right fun h => hp h.1
      · exact (hput (q ++ ns)).imp_right And.right

omit hns in
theorem remove_descend {content : Bytes} {readable : Bool}
    (hat : t.root.at? (q ++ ns) = some (.leaf (.file content readable))) :
    t.remove (r.descend ns) = t.setAt none (by simp) (q ++ ns) := by
  have hname : ∀ n ∈ ns, Component.IsName n := fun n hn => Component.isName_of_isEntryName
    ((t.wellFormed_root.of_at? hat).1 n (List.mem_append_right q hn))
  have hstretches := Path.stretches_descend hgoes.within.spelled hname hne
  obtain ⟨k, hfollow⟩ := hgoes.exists_follow_descend
  obtain ⟨dirs, n, rfl⟩ := (List.eq_nil_or_concat' ns).resolve_left hne
  obtain ⟨hnil, hdot, -, -⟩ := hname n (by simp)
  have hlast : ((r.trunk ++ (dirs ++ [n])).reverse.dropWhile fun s => s = [] ∨ s = [dot]).reverse =
      r.trunk ++ dirs ++ [n] := by
    simp [hnil, hdot]
  rw [← List.append_assoc] at hat
  obtain ⟨listable, l, hfolder, -⟩ := Node.exists_folder_of_at? hat
  rw [remove, hstretches, hlast]
  simp only [List.getLast?_concat, List.dropLast_concat]
  rw [hfollow, Node.follow_of_at? t.wellFormed_root (by simp) hfolder]
  simp only [List.append_assoc]

/-- **Deleting a file** takes it out and changes nothing else. -/
theorem sameBut_delete (hdirect : t.root.Direct q ns) :
    ((FileEdit.delete (r.descend ns)).apply t).workingDir = t.workingDir ∧
      SameBut (q ++ ns) t.root ((FileEdit.delete (r.descend ns)).apply t).root ∧
        ∀ content readable, ((FileEdit.delete (r.descend ns)).apply t).find (r.descend ns) ≠
          .ok (.file content readable) := by
  rw [FileEdit.apply]
  split
  · next content readable hfind =>
    obtain ⟨-, hat⟩ := (hgoes.find_descend_eq_file_iff hns hne hdirect).mp hfind
    rw [remove_descend hgoes hne hat]
    have hsame : SameBut (q ++ ns) t.root (t.setAt none (by simp) (q ++ ns)).root := by
      have hset := t.keeps_setAt (by simp) Node.bare_none (hat ▸ Node.bare_leaf _)
      refine ⟨fun p hp => (hset p).resolve_right fun h => hp h.1, (hset _).imp_right ?_⟩
      rintro ⟨-, hnone⟩
      rw [hat, hnone]
      exact ⟨Node.plain_file content readable, Node.plain_none⟩
    have hdir := t.workingDir_setAt none (by simp) (q ++ ns)
    refine ⟨hdir, hsame, fun content' readable' hfind' => ?_⟩
    obtain ⟨-, hat'⟩ := ((hgoes.mono hsame.stays hdir).find_descend_eq_file_iff hns hne
      (hsame.direct hdirect)).mp hfind'
    obtain ⟨dirs, n, hsplit⟩ := (List.eq_nil_or_concat' ns).resolve_left hne
    rw [hsplit, ← List.append_assoc] at hat hat'
    exact absurd ((t.at?_setAt_self (by simp) hat).symm.trans hat') (by simp)
  · next hfind => exact ⟨rfl, .of_keeps fun _ => .refl _, hfind⟩

end FileTree

/-! ## Edits and the texts of a workspace -/

namespace FileTree

open Node (SameBut)

variable {t : FileTree} {sel : Selection} {r : Path} {l : Listing}
  (hr : t.find r = .ok (.folder true l)) {ns : List Bytes} (hns : ∀ n ∈ ns, Component.IsName n)
  (hne : ns ≠ []) (hclear : l.Clear ns)

include hr hns hne hclear

/-- **An edit below a directory** leaves it a directory, in which everything else is as it was. -/
theorem exists_find_apply {e : FileEdit} (he : e.path = r.descend ns) :
    ∃ l', (e.apply t).find r = .ok (.folder true l') ∧
      SameBut ns (.folder true l) (.folder true l') := by
  obtain ⟨q, hgoes, hq, hdirect⟩ := exists_goesTo_of_clear hr hclear
  obtain ⟨hdir, hsame⟩ : (e.apply t).workingDir = t.workingDir ∧
      SameBut (q ++ ns) t.root (e.apply t).root := by
    rcases e with ⟨p, content⟩ | ⟨p, content⟩ | p <;> obtain rfl : p = r.descend ns := he
    · exact sameBut_write hgoes hns hne hdirect content
    · exact sameBut_write hgoes hns hne hdirect content
    · obtain ⟨hdir, hsame, -⟩ := sameBut_delete hgoes hns hne hdirect
      exact ⟨hdir, hsame⟩
  obtain ⟨l', hq', hbelow⟩ := hsame.below hne hq
  exact ⟨l', (hgoes.mono hsame.stays hdir).find hq', hbelow⟩

variable (hsel : sel.searchPaths = [r])

include hsel

/-- **An edit changes the text of its own path only.** -/
theorem textAt?_apply_of_ne {e : FileEdit} (he : e.path = r.descend ns) {p : Path}
    (hp : p ≠ e.path) : source.textAt? (e.apply t) sel p = source.textAt? t sel p := by
  obtain ⟨l', hr', hsame⟩ := exists_find_apply hr hns hne hclear he
  refine Option.ext fun text => ?_
  rw [textAt?_eq_some_iff hr' hsel, textAt?_eq_some_iff hr hsel]
  refine exists_congr fun dirs => exists_congr fun n => exists_congr fun content =>
    and_congr_right fun hpath => ?_
  have hother : dirs ++ [n] ≠ ns := fun h => hp (by rw [hpath, h, he])
  have hfile : l'.at? (dirs ++ [n]) = some (.leaf (.file content true)) ↔
      l.at? (dirs ++ [n]) = some (.leaf (.file content true)) :=
    (hsame.elsewhere _ hother).leaf_iff _
  constructor
  · rintro ⟨hexcluded, hopen, hext, hshort, hat, htext⟩
    exact ⟨hexcluded, (Listing.isOpen_iff hsame (hfile.mp hat)).mp hopen, hext, hshort,
      hfile.mp hat, htext⟩
  · rintro ⟨hexcluded, hopen, hext, hshort, hat, htext⟩
    exact ⟨hexcluded, (Listing.isOpen_iff hsame hat).mpr hopen, hext, hshort, hfile.mpr hat, htext⟩

/-- **After an edit that is accepted** the path has the text that reading it gives. -/
theorem textAt?_apply_self {e : FileEdit} (he : e.path = r.descend ns)
    (hp : sel.accepts e.path = true) :
    source.textAt? (e.apply t) sel e.path = ((e.apply t).read e.path).toOption := by
  obtain ⟨l', hr', hsame⟩ := exists_find_apply hr hns hne hclear he
  rw [he] at hp ⊢
  exact textAt?_of_accepts hr' hsel hns hne (hclear.mono hsame) hp

omit hsel in
/-- **A deleted file cannot be read.** -/
theorem read_apply_delete :
    (((FileEdit.delete (r.descend ns)).apply t).read (r.descend ns)).toOption = none := by
  obtain ⟨q, hgoes, -, hdirect⟩ := exists_goesTo_of_clear hr hclear
  refine Option.eq_none_iff_forall_ne_some.mpr fun text htext => ?_
  obtain ⟨content, hfind, -⟩ := read_eq_ok_iff.mp htext
  exact (sameBut_delete hgoes hns hne hdirect).2.2 content true hfind

end FileTree

end TclAtlas
