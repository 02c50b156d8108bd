import TclAtlas.Proofs.Workspace.Walk

/-!
# Proofs/Workspace/Acceptance — which of the listed files events may be about

Listing a workspace and accepting an event both look for excluded directories below a search path,
but not in the same way.  A listing looks at the directories on the way from the search path by
which the file is found, and not at the name of the file.  Accepting an event looks at all names
below the first search path that the file lies in, which may be another one, further up.

So of the listed paths those are accepted that have no excluded name themselves and for which no
excluded directory lies between the first search path and the one by which they were found
(`FileTree.accepts_paths_iff`).  The others stay in the catalog whatever happens to their files.
-/

namespace TclAtlas

/-! ## Below a search path -/

namespace Path

theorem after?_eq_some_iff [DecidableEq α] : ∀ {l m r : List α},
    after? l m = some r ↔ m = l ++ r
  | [], _, _ => by simp [after?]
  | _ :: _, [], _ => by simp [after?]
  | a :: l, b :: m, r => by
    rw [after?, List.cons_append, List.cons.injEq]
    split
    · next h => rw [after?_eq_some_iff, and_iff_right h.symm]
    · next h => simp [Ne.symm h]

theorem below?_eq_some_iff {p base : Path} {cs : List Component} :
    p.below? base = some cs ↔ p.components = base.components ++ cs := after?_eq_some_iff

end Path

namespace Selection

/-- **The first search path that a path lies in.** -/
def firstAbove? (sel : Selection) (p : Path) : Option Path :=
  sel.searchPaths.find? fun r => (p.below? r).isSome

/-- **Names that are all passed**: none of them is excluded. -/
def PassesNames (sel : Selection) (cs : List Component) : Prop :=
  ∀ n, .normal n ∈ cs → sel.excludes n = false

theorem accepts_iff {sel : Selection} {p first : Path} {cs : List Component}
    (hfirst : sel.firstAbove? p = some first) (hcs : p.below? first = some cs) :
    sel.accepts p = true ↔ sel.hasExtension p = true ∧ sel.PassesNames cs := by
  have hrelative : sel.relative p = cs := by
    obtain ⟨-, before, after, hsplit, hnone⟩ := List.find?_eq_some_iff_append.mp hfirst
    have hskip : before.findSome? p.below? = none := by
      simpa [List.findSome?_eq_none_iff] using hnone
    rw [relative, hsplit, List.findSome?_append, hskip, List.findSome?_cons, hcs]
    rfl
  rw [accepts, hrelative]
  simp only [Bool.and_eq_true, Bool.not_eq_true', List.any_eq_false, List.mem_filterMap,
    Bool.not_eq_true]
  refine and_congr_right fun _ => ⟨fun h n hn => h n ⟨_, hn, rfl⟩, ?_⟩
  rintro h n ⟨c, hc, hn⟩
  cases c with
  | normal m =>
    obtain rfl := Option.some.inj hn
    exact h m hc
  | root | here | above => exact absurd hn (by simp [Component.name?])

end Selection

/-! ## Two search paths above one path -/

section TwoAbove

variable {sel : Selection} {first r p : Path} {rel : List Component} {ns : List Bytes}
  (hrel : p.components = first.components ++ rel)
  (hns : p.components = r.components ++ ns.map .normal)

include hrel

/-- Strictly below the first search path, the file name is among the names to pass. -/
theorem Path.fileName_mem_below {n : Bytes} (hn : p.fileName? = some n)
    (hbelow : p.same first = false) : .normal n ∈ rel := by
  have hne : rel ≠ [] := by
    rintro rfl
    rw [List.append_nil] at hrel
    exact absurd hbelow (by simp [Path.same, hrel])
  obtain ⟨c, hc, hname⟩ := Option.bind_eq_some_iff.mp hn
  rw [hrel, List.getLast?_append_of_ne_nil _ hne] at hc
  cases c with
  | normal m =>
    obtain rfl := Option.some.inj hname
    exact List.mem_of_getLast? hc
  | root | here | above => exact absurd hname (by simp [Component.name?])

include hns

/-- What leads from the first search path down to the other is part of the way below the first. -/
theorem Path.below_eq_append {cs : List Component} (hcs : r.below? first = some cs) :
    rel = cs ++ ns.map .normal := by
  rw [hrel, Path.below?_eq_some_iff.mp hcs, List.append_assoc] at hns
  exact List.append_cancel_left hns

/-- A name below the first search path is below the other one too, or leads down to it. -/
theorem Path.mem_below_cases {n : Bytes} (hn : .normal n ∈ rel) :
    n ∈ ns ∨ ∃ cs, r.below? first = some cs ∧ .normal n ∈ cs := by
  have hnormal : Component.normal n ∈ ns.map .normal → n ∈ ns := by simp
  rcases List.append_eq_append_iff.mp (hrel.symm.trans hns) with ⟨cs, hr, hsplit⟩ | ⟨cs, -, hsplit⟩
  · rw [hsplit, List.mem_append] at hn
    exact hn.symm.imp hnormal fun hmem => ⟨cs, Path.below?_eq_some_iff.mpr hr, hmem⟩
  · exact .inl (hnormal (hsplit ▸ List.mem_append_right cs hn))

/-- **Passing all names below the first search path**, for a path found by way of directories that
are not excluded: it is enough to look at the file name and at what leads down to the search path by
which it was found. -/
theorem Selection.passesNames_iff (hentered : ∀ n ∈ ns.dropLast, sel.excludes n = false) :
    sel.PassesNames rel ↔
      (p.same first = false → ∀ n, p.fileName? = some n → sel.excludes n = false) ∧
      ∀ cs, r.below? first = some cs → sel.PassesNames cs := by
  constructor
  · refine fun hpass => ⟨fun hbelow n hn => hpass n (Path.fileName_mem_below hrel hn hbelow), ?_⟩
    intro cs hcs n hn
    refine hpass n ?_
    rw [Path.below_eq_append hrel hns hcs]
    exact List.mem_append_left _ hn
  · rintro ⟨hname, hway⟩ n hn
    rcases Path.mem_below_cases hrel hns hn with hmem | ⟨cs, hcs, hmem⟩
    · have hbelow : p.same first = false := by
        refine beq_false_of_ne fun heq => ?_
        rw [← heq] at hrel
        exact List.ne_nil_of_mem hn (List.self_eq_append_right.mp hrel)
      have hne : ns ≠ [] := List.ne_nil_of_mem hmem
      rw [← List.dropLast_append_getLast hne, List.mem_append, List.mem_singleton] at hmem
      rcases hmem with hmem | rfl
      · exact hentered n hmem
      · refine hname hbelow _ ?_
        rw [Path.fileName?, hns, List.getLast?_append_of_ne_nil _ (by simpa using hne),
          List.getLast?_map, List.getLast?_eq_some_getLast hne]
        rfl
    · exact hway cs hcs n hmem

end TwoAbove

/-! ## Listed paths -/

namespace FileTree

variable {t : FileTree} {sel : Selection} {p r : Path}

/-- **A path is listed at a search path** when it is found there. -/
def Lists (t : FileTree) (sel : Selection) (r p : Path) : Prop :=
  ∃ ps, t.collect sel r = .ok ps ∧ p ∈ ps

/-- **The paths of a workspace are listed at its search paths.** -/
theorem exists_lists (hp : p ∈ t.paths sel) : ∃ r ∈ sel.searchPaths, t.Lists sel r p := by
  obtain ⟨ps, hps, hmem⟩ := List.mem_flatten.mp (Path.mem_of_mem_eraseDupsBy hp)
  obtain ⟨r, hr, rfl⟩ := List.mem_map.mp hps
  refine ⟨r, hr, ?_⟩
  rw [source_collect] at hmem
  rcases hcollect : t.collect sel r with fault | ps
  · rw [hcollect] at hmem
    exact absurd hmem (by simp [Except.toOption])
  · rw [hcollect] at hmem
    exact ⟨ps, hcollect, hmem⟩

/-- **A listed path leads down from the search path** through directories that are not excluded, to
a file with a selected extension. -/
theorem Lists.way (h : t.Lists sel r p) : sel.hasExtension p = true ∧
    ∃ ns : List Bytes, p.components = r.components ++ ns.map .normal ∧
      ∀ n ∈ ns.dropLast, sel.excludes n = false := by
  obtain ⟨ps, hps, hp⟩ := h
  rw [collect] at hps
  rcases hfind : t.find r with fault | ⟨content, readable⟩ | ⟨_ | _, l⟩
  · rw [hfind] at hps
    exact absurd hps (by simp)
  · obtain rfl : (if sel.hasExtension r then [r] else []) = ps := by simpa [hfind] using hps
    split at hp
    · next hext =>
      obtain rfl := List.mem_singleton.mp hp
      exact ⟨hext, [], by simp, by simp⟩
    · exact absurd hp (by simp)
  · rw [hfind] at hps
    exact absurd hps (by simp)
  · obtain rfl : (l.walk sel r).mergeSort Path.le = ps := by simpa [hfind] using hps
    have hl := wellFormed_of_find hfind
    obtain ⟨n, ns, _, _, hat, rfl, henters, hext⟩ :=
      (l.mem_walk_iff sel p r hl).mp (List.mem_mergeSort.mp hp)
    exact ⟨hext, n :: ns,
      Path.components_descend (within_of_find hfind).spelled (Listing.isName_of_at? hl hat),
      henters.excludes_dropLast⟩

/-! ## Accepted paths -/

/-- **Which listed paths are accepted.**  A path of a workspace lies in a first search path, and is
listed at some search path.  It is accepted exactly when, first, its file name is not excluded,
unless it is that first search path itself, and second, no name is excluded that leads from the
first search path down to the one at which it is listed, if that one lies below. -/
theorem accepts_paths_iff (hp : p ∈ t.paths sel) :
    (∃ r ∈ sel.searchPaths, t.Lists sel r p) ∧
    ∃ first, sel.firstAbove? p = some first ∧ ∀ r, t.Lists sel r p →
      (sel.accepts p = true ↔
        (p.same first = false → ∀ n, p.fileName? = some n → sel.excludes n = false) ∧
        ∀ cs, r.below? first = some cs → sel.PassesNames cs) := by
  obtain ⟨r, hr, hlists⟩ := exists_lists hp
  refine ⟨⟨r, hr, hlists⟩, ?_⟩
  obtain ⟨-, ns, hns, -⟩ := hlists.way
  have hsome : (sel.firstAbove? p).isSome :=
    List.find?_isSome.mpr ⟨r, hr, by rw [Path.below?_eq_some_iff.mpr hns]; rfl⟩
  obtain ⟨first, hfirst⟩ := Option.isSome_iff_exists.mp hsome
  have hbelow : (p.below? first).isSome :=
    List.find?_some (p := fun r => (p.below? r).isSome) hfirst
  obtain ⟨rel, hrel⟩ := Option.isSome_iff_exists.mp hbelow
  refine ⟨first, hfirst, fun r hlists => ?_⟩
  obtain ⟨hext, ns, hns, hentered⟩ := hlists.way
  rw [Selection.accepts_iff hfirst hrel, and_iff_right hext]
  exact Selection.passesNames_iff (Path.below?_eq_some_iff.mp hrel) hns hentered

/-! ### A search path inside an excluded directory of another -/

/-- The tree with one file, `ws/target/gen/a.tcl`. -/
def generatedTree : FileTree := empty.write (.ofText "ws/target/gen/a.tcl".toList) []

/-- The workspace `ws` together with what is generated below its directory `target`, which is
excluded. -/
def withGenerated : Selection :=
  (Selection.nowhere.addRoot (.ofText "ws".toList)).addExtraPath (.ofText "ws/target/gen".toList)

theorem collect_workspace :
    generatedTree.collect withGenerated (.ofText "ws".toList) = .ok [] := by
  have hfind : generatedTree.find (.ofText "ws".toList) = .ok (.folder true
      (.folder (Text.utf8 "target".toList) true (.folder (Text.utf8 "gen".toList) true
        (.leaf (Text.utf8 "a.tcl".toList) (.file [] true) .nil) .nil) .nil)) := by
    decide +kernel
  rw [collect_of_find hfind]
  have hwalk : Listing.walk withGenerated (.ofText "ws".toList) (.folder
      (Text.utf8 "target".toList) true (.folder (Text.utf8 "gen".toList) true
        (.leaf (Text.utf8 "a.tcl".toList) (.file [] true) .nil) .nil) .nil) = [] := by
    decide +kernel
  rw [hwalk, List.mergeSort_nil]

theorem collect_generated :
    generatedTree.collect withGenerated (.ofText "ws/target/gen".toList) =
      .ok [.ofText "ws/target/gen/a.tcl".toList] := by
  have hfind : generatedTree.find (.ofText "ws/target/gen".toList) = .ok (.folder true
      (.leaf (Text.utf8 "a.tcl".toList) (.file [] true) .nil)) := by
    decide +kernel
  rw [collect_of_find hfind]
  have hwalk : Listing.walk withGenerated (.ofText "ws/target/gen".toList)
      (.leaf (Text.utf8 "a.tcl".toList) (.file [] true) .nil) =
        [.ofText "ws/target/gen/a.tcl".toList] := by
    decide +kernel
  rw [hwalk, List.mergeSort_singleton]

theorem mem_paths_generated :
    Path.ofText "ws/target/gen/a.tcl".toList ∈ generatedTree.paths withGenerated := by
  have hsearch : withGenerated.searchPaths =
      [.ofText "ws".toList, .ofText "ws/target/gen".toList] := by decide +kernel
  have hmerge : Path.merge [[], [.ofText "ws/target/gen/a.tcl".toList]] =
      [.ofText "ws/target/gen/a.tcl".toList] := by decide +kernel
  rw [paths, FileSource.paths, hsearch, List.map_cons, List.map_cons, List.map_nil,
    source_collect, source_collect, collect_workspace, collect_generated]
  simp only [Except.toOption, Option.getD_some]
  rw [hmerge]
  exact List.mem_singleton_self _

/-- The first search path is `ws`, and the excluded `target` leads from it to the second. -/
theorem accepts_paths_iff_generated :
    Path.ofText "ws/target/gen/a.tcl".toList ∈ generatedTree.paths withGenerated ∧
      ¬ withGenerated.accepts (.ofText "ws/target/gen/a.tcl".toList) = true := by
  obtain ⟨-, first, hfirst, hiff⟩ := accepts_paths_iff mem_paths_generated
  have hws : withGenerated.firstAbove? (.ofText "ws/target/gen/a.tcl".toList) =
      some (.ofText "ws".toList) := by decide +kernel
  obtain rfl : Path.ofText "ws".toList = first := Option.some.inj (hws.symm.trans hfirst)
  have hlists : generatedTree.Lists withGenerated (.ofText "ws/target/gen".toList)
      (.ofText "ws/target/gen/a.tcl".toList) := ⟨_, collect_generated, List.mem_singleton.mpr rfl⟩
  refine ⟨mem_paths_generated, fun haccepts => ?_⟩
  have hpass := ((hiff _ hlists).mp haccepts).2
    [.normal (Text.utf8 "target".toList), .normal (Text.utf8 "gen".toList)] (by decide +kernel)
  have hexcluded : withGenerated.excludes (Text.utf8 "target".toList) = true := by decide +kernel
  exact absurd (hexcluded.symm.trans (hpass _ List.mem_cons_self)) (by decide)

/-- **Not every listed path is accepted.** -/
theorem not_accepts_all_paths :
    ¬ ∀ (t : FileTree) (sel : Selection) (p : Path), p ∈ t.paths sel → sel.accepts p = true :=
  fun h => absurd (h generatedTree withGenerated _ mem_paths_generated) (by decide +kernel)

end FileTree

end TclAtlas
