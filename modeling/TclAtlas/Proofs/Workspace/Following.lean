import TclAtlas.Proofs.Path.Joining
import TclAtlas.Proofs.Workspace.Places

/-!
# Proofs/Workspace/Following — where a path leads while files come and go

A path may wander before it comes to a directory: down and up again, and over links.  Which way it
takes is told by the directories and links on it (`Node.Leads`), and following the path goes on from
where the way ends (`Node.Leads.follow_append`).  As long as directories and links stay where they
are, the path keeps leading to the directory in the same place (`FileTree.GoesTo.mono`), whatever
files are written or removed.

From there on names lead down.  Where no link is on the way, a path below the directory leads to a
file exactly if the file is at the place of these names
(`FileTree.GoesTo.find_descend_eq_file_iff`).
-/

namespace TclAtlas

theorem isNameTooLong_of_isEntryName {n : Bytes} (h : isEntryName n = true) :
    isNameTooLong n = false := by
  rw [isEntryName, Bool.and_eq_true] at h
  simpa using h.2

theorem contains_nul_of_isEntryName {n : Bytes} (h : isEntryName n = true) :
    n.contains nul = false := by
  rw [isEntryName, Bool.and_eq_true, Bool.and_eq_true] at h
  simpa using h.1.2

namespace Node

variable {root root' : Node} {k k' : Nat} {p q : Place} {s : Bytes} {ss : List Bytes}

/-! ## One stretch at a time -/

/-- How a path goes on from a link, by way of so many links at most. -/
def jump (root : Node) : Nat → Place → Path → List Bytes → Except Fault Place
  | 0, _, _, _ => .error .tooManyLinks
  | k + 1, here, target, ss => root.follow k (target.startFrom here) (target.stretches ++ ss)

theorem follow_eq_followTo (root : Node) : ∀ k, root.follow k = root.followTo (root.jump k)
  | 0 => rfl
  | _ + 1 => rfl

@[simp] theorem follow_nil (root : Node) (k : Nat) (p : Place) : root.follow k p [] = .ok p := by
  rw [follow_eq_followTo, followTo]

theorem follow_stay (root : Node) (k : Nat) (p : Place) (hs : s = [] ∨ s = [dot])
    (ss : List Bytes) : root.follow k p (s :: ss) = root.follow k p ss := by
  rw [follow_eq_followTo, followTo, if_pos hs]

theorem follow_up (root : Node) (k : Nat) (p : Place) (ss : List Bytes) :
    root.follow k p ([dot, dot] :: ss) = root.follow k p.dropLast ss := by
  rw [follow_eq_followTo, followTo, if_neg (by decide), if_pos rfl]

/-- **A name on the way**: what is there decides how the path goes on. -/
theorem follow_name (root : Node) (k : Nat) (p : Place) (hs : ¬(s = [] ∨ s = [dot]))
    (hdots : s ≠ [dot, dot]) (ss : List Bytes) : root.follow k p (s :: ss) =
      if isNameTooLong s then .error .tooLong
      else
        match root.at? (p ++ [s]) with
        | some (.folder _ _) => root.follow k (p ++ [s]) ss
        | some (.leaf (.link target)) => root.jump k p target ss
        | some (.leaf (.file _ _)) => if ss = [] then .ok (p ++ [s]) else .error .notDirectory
        | none => if ss = [] then .ok (p ++ [s]) else .error .absent := by
  rw [follow_eq_followTo, followTo, if_neg hs]
  exact if_neg hdots

/-- What is at a place of a well-formed root has a name that entries can have. -/
theorem WellFormed.isEntryName_of_at? (hroot : root.WellFormed) {node : Node}
    (h : root.at? (p ++ [s]) = some node) : isEntryName s = true :=
  (hroot.of_at? h).1 s (List.mem_append_right _ (List.mem_singleton.mpr rfl))


/-! ## The way of a path -/

/-- **Stretches lead from place to place**, over directories and links that are there.  The numbers
are how many links may still be followed, at the start and at the end of the way. -/
inductive Leads (root : Node) : Nat → Place → List Bytes → Nat → Place → Prop
  | here (k : Nat) (p : Place) : Leads root k p [] k p
  | stay {k k' : Nat} {p q : Place} {s : Bytes} {ss : List Bytes} (hs : s = [] ∨ s = [dot])
    (h : Leads root k p ss k' q) : Leads root k p (s :: ss) k' q
  | up {k k' : Nat} {p q : Place} {ss : List Bytes} (h : Leads root k p.dropLast ss k' q) :
    Leads root k p ([dot, dot] :: ss) k' q
  | into {k k' : Nat} {p q : Place} {s : Bytes} {ss : List Bytes} {listable : Bool} {l : Listing}
    (hat : root.at? (p ++ [s]) = some (.folder listable l)) (h : Leads root k (p ++ [s]) ss k' q) :
    Leads root k p (s :: ss) k' q
  | jump {k k' : Nat} {p q : Place} {s : Bytes} {ss : List Bytes} {target : Path}
    (hat : root.at? (p ++ [s]) = some (.leaf (.link target)))
    (h : Leads root k (target.startFrom p) (target.stretches ++ ss) k' q) :
    Leads root (k + 1) p (s :: ss) k' q

/-- **Following goes on** from where the first stretches lead. -/
theorem Leads.follow_append (hroot : root.WellFormed) (h : root.Leads k p ss k' q)
    (rest : List Bytes) : root.follow k p (ss ++ rest) = root.follow k' q rest := by
  induction h with
  | here k p => rfl
  | @stay k _ p _ _ ss hs _ ih => rw [List.cons_append, root.follow_stay k p hs, ih]
  | @up k _ p _ ss _ ih => rw [List.cons_append, root.follow_up k p, ih]
  | @into k _ p _ s ss _ _ hat _ ih =>
    have hname := hroot.isEntryName_of_at? hat
    obtain ⟨hne, hdot, hdots, -⟩ := Component.isName_of_isEntryName hname
    rw [List.cons_append, root.follow_name k p (not_or.mpr ⟨hne, hdot⟩) hdots,
      isNameTooLong_of_isEntryName hname, if_neg Bool.false_ne_true, hat]
    exact ih
  | @jump k _ p _ s ss target hat _ ih =>
    have hname := hroot.isEntryName_of_at? hat
    obtain ⟨hne, hdot, hdots, -⟩ := Component.isName_of_isEntryName hname
    rw [List.cons_append, root.follow_name (k + 1) p (not_or.mpr ⟨hne, hdot⟩) hdots,
      isNameTooLong_of_isEntryName hname, if_neg Bool.false_ne_true, hat]
    simp only [Node.jump]
    rw [← List.append_assoc]
    exact ih

section

variable {listable : Bool} {l : Listing} (hq : root.at? q = some (.folder listable l))

include hq

theorem exists_leads_of_jump (hjump : ∀ {p : Place} {s : Bytes} {target : Path} {ss : List Bytes},
    root.at? (p ++ [s]) = some (.leaf (.link target)) → root.jump k p target ss = .ok q →
      ∃ k', root.Leads k p (s :: ss) k' q) :
    ∀ (ss : List Bytes) {p : Place}, root.follow k p ss = .ok q → ∃ k', root.Leads k p ss k' q
  | [], p, h => by
    rw [follow_nil] at h
    obtain rfl := Except.ok.inj h
    exact ⟨k, .here k p⟩
  | s :: ss, p, h => by
    -- nothing or a file at the end of the way would be in the place of the directory
    have hends : ∀ {fault : Fault}, (if ss = [] then Except.ok (p ++ [s]) else .error fault) =
        .ok q → p ++ [s] = q := by
      intro fault hend
      split at hend
      · exact Except.ok.inj hend
      · exact absurd hend (by simp)
    by_cases hs : s = [] ∨ s = [dot]
    · rw [root.follow_stay k p hs] at h
      obtain ⟨k', h'⟩ := exists_leads_of_jump hjump ss h
      exact ⟨k', .stay hs h'⟩
    by_cases hdots : s = [dot, dot]
    · subst hdots
      rw [root.follow_up k p] at h
      obtain ⟨k', h'⟩ := exists_leads_of_jump hjump ss h
      exact ⟨k', .up h'⟩
    rw [root.follow_name k p hs hdots] at h
    split at h
    · exact absurd h (by simp)
    rcases hat : root.at? (p ++ [s]) with _ | ((⟨content, readable⟩ | target) | ⟨listable', l'⟩) <;>
      simp only [hat] at h
    · exact absurd (hat.symm.trans (hends h ▸ hq)) (by simp)
    · exact absurd (hat.symm.trans (hends h ▸ hq)) (by simp)
    · exact hjump hat h
    · obtain ⟨k', h'⟩ := exists_leads_of_jump hjump ss h
      exact ⟨k', .into hat h'⟩

/-- **A path that leads to a directory** has directories and links on its way only. -/
theorem exists_leads : ∀ (k : Nat) (ss : List Bytes) {p : Place}, root.follow k p ss = .ok q →
    ∃ k', root.Leads k p ss k' q
  | 0 => exists_leads_of_jump hq fun _ h => absurd h (by simp [Node.jump])
  | k + 1 => exists_leads_of_jump hq fun {_ _ target ss} hat h => by
    obtain ⟨k', h'⟩ := exists_leads k (target.stretches ++ ss) h
    exact ⟨k', .jump hat h'⟩

end

/-- A slash at the end makes no difference. -/
theorem Leads.of_concat_nil (hroot : root.WellFormed) (h : root.Leads k p (ss ++ [[]]) k' q) :
    root.Leads k p ss k' q := by
  generalize hts : ss ++ [[]] = ts at h
  have hcases : ∀ {ss ts : List Bytes} {t : Bytes}, ss ++ [[]] = t :: ts →
      (ss = [] ∧ t = [] ∧ ts = []) ∨ ∃ ss', ss = t :: ss' ∧ ss' ++ [[]] = ts := by
    rintro (_ | ⟨s, ss⟩) ts t heq
    · obtain ⟨rfl, rfl⟩ := List.cons.inj heq
      exact .inl ⟨rfl, rfl, rfl⟩
    · obtain ⟨rfl, rfl⟩ := List.cons.inj heq
      exact .inr ⟨ss, rfl, rfl⟩
  have hnamed : ∀ {p : Place} {node : Node}, root.at? (p ++ [[]]) ≠ some node := fun hat =>
    absurd (hroot.isEntryName_of_at? hat) (by decide)
  induction h generalizing ss with
  | here => exact absurd hts (by simp)
  | stay hs h ih =>
    rcases hcases hts with ⟨rfl, -, rfl⟩ | ⟨ss', rfl, hss'⟩
    · exact h
    · exact .stay hs (ih hss')
  | up h ih =>
    rcases hcases hts with ⟨-, hdots, -⟩ | ⟨ss', rfl, hss'⟩
    · exact absurd hdots (by simp)
    · exact .up (ih hss')
  | into hat h ih =>
    rcases hcases hts with ⟨-, rfl, -⟩ | ⟨ss', rfl, hss'⟩
    · exact absurd hat hnamed
    · exact .into hat (ih hss')
  | @jump _ _ _ _ _ _ target hat h ih =>
    rcases hcases hts with ⟨-, rfl, -⟩ | ⟨ss', rfl, hss'⟩
    · exact absurd hat hnamed
    · exact .jump hat (ih (by rw [List.append_assoc, hss']))

/-- **Directories and links stay** where they are; the directories stay as open as they were. -/
structure Stays (root root' : Node) : Prop where
  folder : ∀ {p : Place} {listable : Bool} {l : Listing},
    root.at? p = some (.folder listable l) → ∃ l', root'.at? p = some (.folder listable l')
  link : ∀ {p : Place} {target : Path},
    root.at? p = some (.leaf (.link target)) → root'.at? p = some (.leaf (.link target))

/-- **The way stays open** as long as directories and links stay. -/
theorem Leads.mono (hstays : root.Stays root') (h : root.Leads k p ss k' q) :
    root'.Leads k p ss k' q := by
  induction h with
  | here k p => exact .here k p
  | stay hs _ ih => exact .stay hs ih
  | up _ ih => exact .up ih
  | into hat _ ih =>
    obtain ⟨l', hat'⟩ := hstays.folder hat
    exact .into hat' ih
  | jump hat _ ih => exact .jump (hstays.link hat) ih

/-! ## Names that lead down -/

/-- **No link is on the way down** from a place. -/
def Direct (root : Node) (q ns : Place) : Prop :=
  ∀ ms, ms <+: ns → ∀ target, root.at? (q ++ ms) ≠ some (.leaf (.link target))

theorem Direct.head {n : Bytes} {ns : Place} (h : root.Direct q (n :: ns)) (target : Path) :
    root.at? (q ++ [n]) ≠ some (.leaf (.link target)) :=
  h [n] (List.prefix_append [n] ns) target

theorem Direct.tail {n : Bytes} {ns : Place} (h : root.Direct q (n :: ns)) :
    root.Direct (q ++ [n]) ns := by
  intro ms hms target
  rw [List.append_assoc]
  exact h (n :: ms) (List.cons_prefix_cons.mpr ⟨rfl, hms⟩) target

/-- Only directories are on the way to what is there. -/
theorem exists_folder_of_prefix {node : Node} {ms ns : Place} (hms : ms <+: ns) (hne : ms ≠ ns)
    (h : root.at? (q ++ ns) = some node) :
    ∃ listable l, root.at? (q ++ ms) = some (.folder listable l) := by
  obtain ⟨rest, rfl⟩ := hms
  obtain ⟨n, rest, rfl⟩ := List.exists_cons_of_ne_nil fun hrest : rest = [] =>
    hne (by rw [hrest, List.append_nil])
  have hsplit : q ++ (ms ++ n :: rest) = (q ++ ms ++ [n]) ++ rest := by simp
  rw [hsplit, at?_append] at h
  obtain ⟨below, hbelow, -⟩ := Option.bind_eq_some_iff.mp h
  obtain ⟨listable, l, hat, -⟩ := exists_folder_of_at? hbelow
  exact ⟨listable, l, hat⟩

theorem ne_concat_of_isPrefix {ms dirs : Place} {n : Bytes} (hms : ms <+: dirs) :
    ms ≠ dirs ++ [n] := by
  rintro rfl
  exact absurd hms.length_le (by simp)

/-- **The directories above** what is there. -/
theorem exists_folder_above {node : Node} {ms dirs : Place} {n : Bytes} (hms : ms <+: dirs)
    (h : root.at? (q ++ (dirs ++ [n])) = some node) :
    ∃ listable l, root.at? (q ++ ms) = some (.folder listable l) :=
  exists_folder_of_prefix (hms.trans (List.prefix_append dirs [n])) (ne_concat_of_isPrefix hms) h

/-- **No link is on the way** to a file that is there, going by entries. -/
theorem direct_of_file {ns : Place} {content : Bytes} {readable : Bool}
    (h : root.at? (q ++ ns) = some (.leaf (.file content readable))) : root.Direct q ns := by
  intro ms hms target hlink
  rcases eq_or_ne ms ns with rfl | hne
  · exact absurd (hlink.symm.trans h) (by simp)
  · obtain ⟨listable, l, hat⟩ := exists_folder_of_prefix hms hne h
    exact absurd (hlink.symm.trans hat) (by simp)

/-- **Names lead straight down** where no link is on the way. -/
theorem eq_append_of_follow {p : Place} : ∀ {ns : List Bytes} {q : Place},
    (∀ n ∈ ns, Component.IsName n) → root.Direct q ns → root.follow k q ns = .ok p → p = q ++ ns
  | [], q, _, _, h => by
    rw [follow_nil] at h
    rw [List.append_nil, Except.ok.inj h]
  | n :: ns, q, hns, hdirect, h => by
    obtain ⟨⟨hne, hdot, hdots, -⟩, hns⟩ := List.forall_mem_cons.mp hns
    have hends : ∀ {fault : Fault}, (if ns = [] then Except.ok (q ++ [n]) else .error fault) =
        .ok p → p = q ++ n :: ns := by
      intro fault hend
      split at hend
      · next hnil => rw [hnil, Except.ok.inj hend]
      · exact absurd hend (by simp)
    rw [root.follow_name k q (not_or.mpr ⟨hne, hdot⟩) hdots] at h
    split at h
    · exact absurd h (by simp)
    rcases hat : root.at? (q ++ [n]) with _ | ((⟨content, readable⟩ | target) | ⟨listable, l⟩) <;>
      simp only [hat] at h
    · exact hends h
    · exact hends h
    · exact absurd hat (hdirect.head target)
    · rw [eq_append_of_follow hns hdirect.tail h, List.append_assoc, List.singleton_append]

/-- **Names lead to what is there**, going by entries. -/
theorem follow_of_at? (hroot : root.WellFormed) {node : Node} (hnode : ∀ target,
    node ≠ .leaf (.link target)) : ∀ {ns : List Bytes} {q : Place},
      root.at? (q ++ ns) = some node → root.follow k q ns = .ok (q ++ ns)
  | [], q, _ => by rw [follow_nil, List.append_nil]
  | n :: ns, q, h => by
    have hsplit : q ++ n :: ns = q ++ [n] ++ ns := by simp
    have hentry : isEntryName n = true := (hroot.of_at? h).1 n (by simp)
    obtain ⟨hne, hdot, hdots, -⟩ := Component.isName_of_isEntryName hentry
    rw [root.follow_name k q (not_or.mpr ⟨hne, hdot⟩) hdots, isNameTooLong_of_isEntryName hentry,
      if_neg Bool.false_ne_true]
    rcases ns with _ | ⟨m, ns⟩
    · rw [h]
      rcases node with (⟨content, readable⟩ | target) | ⟨listable, l⟩
      · rfl
      · exact absurd rfl (hnode target)
      · exact root.follow_nil k _
    · obtain ⟨listable, l, hat⟩ : ∃ listable l, root.at? (q ++ [n]) = some (.folder listable l) :=
        exists_folder_of_prefix (List.prefix_append [n] (m :: ns)) (by simp) h
      rw [hat, hsplit]
      exact follow_of_at? hroot hnode (hsplit ▸ h)

end Node

/-! ## File trees -/

/-- **No limit stands in the way of a path.** -/
structure Path.Within (p : Path) : Prop where
  nul : p.holdsNul = false
  short : p.isTooLong = false
  spelled : p.spelling ≠ []

namespace FileTree

variable {t t' : FileTree} {p r : Path} {q : Place}

theorem place_eq_ok_iff : t.place p = .ok q ↔ p.Within ∧ t.follow p p.stretches = .ok q := by
  rw [place]
  constructor
  · intro h
    split at h
    · exact absurd h (by simp)
    · next hnul =>
      split at h
      · exact absurd h (by simp)
      · next hlong =>
        split at h
        · exact absurd h (by simp)
        · next hne => exact ⟨⟨by simpa using hnul, by simpa using hlong, hne⟩, h⟩
  · rintro ⟨⟨hnul, hlong, hne⟩, h⟩
    rw [if_neg (by simp [hnul]), if_neg (by simp [hlong]), if_neg hne, h]

theorem find_eq_file_iff {content : Bytes} {readable : Bool} :
    t.find p = .ok (.file content readable) ↔
      ∃ q, t.place p = .ok q ∧ t.root.at? q = some (.leaf (.file content readable)) := by
  rw [find]
  rcases t.place p with fault | q
  · simp
  · rcases hat : t.root.at? q with _ | ((⟨content', readable'⟩ | target) | ⟨listable, l⟩) <;>
      simp [hat, Node.reached?]

theorem find_eq_folder_iff {listable : Bool} {l : Listing} :
    t.find p = .ok (.folder listable l) ↔
      ∃ q, t.place p = .ok q ∧ t.root.at? q = some (.folder listable l) := by
  rw [find]
  rcases t.place p with fault | q
  · simp
  · rcases hat : t.root.at? q with _ | ((⟨content', readable'⟩ | target) | ⟨listable', l'⟩) <;>
      simp [hat, Node.reached?]

theorem within_of_find {a : Reached} (h : t.find p = .ok a) : p.Within := by
  rw [find] at h
  rcases hplace : t.place p with fault | q
  · rw [hplace] at h
    exact absurd h (by simp)
  · exact (place_eq_ok_iff.mp hplace).1

/-- **A path goes to a place** by its stretches, be there a slash at its end or not. -/
structure GoesTo (t : FileTree) (r : Path) (q : Place) : Prop where
  within : r.Within
  leads : ∃ k, t.root.Leads maxLinks (r.startFrom t.workingDir) r.trunk k q

/-- **A path to a directory** goes to its place. -/
theorem exists_goesTo {listable : Bool} {l : Listing} (h : t.find r = .ok (.folder listable l)) :
    ∃ q, t.GoesTo r q ∧ t.root.at? q = some (.folder listable l) := by
  obtain ⟨q, hplace, hat⟩ := find_eq_folder_iff.mp h
  obtain ⟨hwithin, hfollow⟩ := place_eq_ok_iff.mp hplace
  obtain ⟨k, hleads⟩ := Node.exists_leads hat _ _ hfollow
  refine ⟨q, ⟨hwithin, k, ?_⟩, hat⟩
  rcases Path.stretches_cases hwithin.spelled with ⟨htrunk, -⟩ | htrunk
  · rwa [← htrunk]
  · rw [htrunk] at hleads
    exact hleads.of_concat_nil t.wellFormed_root

namespace GoesTo

/-- **A path keeps going to its place** as long as directories and links stay. -/
theorem mono (h : t.GoesTo r q) (hstays : t.root.Stays t'.root)
    (hdir : t'.workingDir = t.workingDir) : t'.GoesTo r q := by
  obtain ⟨k, hleads⟩ := h.leads
  exact ⟨h.within, k, hdir ▸ hleads.mono hstays⟩

theorem find (h : t.GoesTo r q) {listable : Bool} {l : Listing}
    (hat : t.root.at? q = some (.folder listable l)) : t.find r = .ok (.folder listable l) := by
  obtain ⟨k, hleads⟩ := h.leads
  refine find_eq_folder_iff.mpr ⟨q, place_eq_ok_iff.mpr ⟨h.within, ?_⟩, hat⟩
  rw [follow]
  rcases Path.stretches_cases h.within.spelled with ⟨htrunk, -⟩ | htrunk
  · have hfollow := hleads.follow_append t.wellFormed_root []
    rwa [List.append_nil, Node.follow_nil, ← htrunk] at hfollow
  · rw [htrunk, hleads.follow_append t.wellFormed_root, Node.follow_stay _ _ _ (.inl rfl),
      Node.follow_nil]

/-- **Below its place** a path goes by names. -/
theorem exists_follow_descend (h : t.GoesTo r q) : ∃ k, ∀ ns ss : List Bytes,
    t.follow (r.descend ns) (r.trunk ++ ss) = t.root.follow k q ss := by
  obtain ⟨k, hleads⟩ := h.leads
  refine ⟨k, fun ns ss => ?_⟩
  rw [follow, Path.startFrom, Path.isAbsolute_descend h.within.spelled, ← Path.startFrom,
    hleads.follow_append t.wellFormed_root]

variable {ns : List Bytes} (hns : ∀ n ∈ ns, Component.IsName n) (hne : ns ≠ [])
  (hdirect : t.root.Direct q ns)

include hns hne hdirect

theorem eq_append_of_place {p : Place} (h : t.GoesTo r q)
    (hplace : t.place (r.descend ns) = .ok p) : p = q ++ ns := by
  obtain ⟨k, hfollow⟩ := h.exists_follow_descend
  obtain ⟨-, hplace⟩ := place_eq_ok_iff.mp hplace
  rw [Path.stretches_descend h.within.spelled hns hne, hfollow] at hplace
  exact Node.eq_append_of_follow hns hdirect hplace

/-- **Below a directory names lead down to a file** when it is at their place and the path is not
too long. -/
theorem find_descend_eq_file_iff (h : t.GoesTo r q) {content : Bytes} {readable : Bool} :
    t.find (r.descend ns) = .ok (.file content readable) ↔ (r.descend ns).isTooLong = false ∧
      t.root.at? (q ++ ns) = some (.leaf (.file content readable)) := by
  constructor
  · intro hfind
    obtain ⟨p, hplace, hat⟩ := find_eq_file_iff.mp hfind
    rw [h.eq_append_of_place hns hne hdirect hplace] at hat
    exact ⟨(within_of_find hfind).short, hat⟩
  · rintro ⟨hshort, hat⟩
    obtain ⟨k, hfollow⟩ := h.exists_follow_descend
    have hnul : ∀ n ∈ ns, n.contains nul = false := fun n hn =>
      contains_nul_of_isEntryName ((t.wellFormed_root.of_at? hat).1 n (List.mem_append_right q hn))
    refine find_eq_file_iff.mpr ⟨q ++ ns, place_eq_ok_iff.mpr ⟨⟨?_, hshort, ?_⟩, ?_⟩, hat⟩
    · rw [Path.holdsNul_descend hnul, h.within.nul]
    · exact Path.spelling_descend_ne_nil h.within.spelled ns
    · rw [Path.stretches_descend h.within.spelled hns hne, hfollow]
      exact Node.follow_of_at? t.wellFormed_root (by simp) hat

end GoesTo

end FileTree

end TclAtlas
