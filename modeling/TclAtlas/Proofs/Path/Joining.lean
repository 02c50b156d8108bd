import TclAtlas.Workspace.Selection
import Mathlib.Data.List.Basic

/-!
# Proofs/Path/Joining — paths below a directory

`Path.descend` joins a path with several names, one after the other.  As long as the names are
normal components (`Component.IsName`), joining does to the spelling what one expects of it: the
components of the joined path are those of the directory followed by the names
(`components_descend`), and different names lead to different paths (`descend_injective`).

A directory may be spelled with a slash at the end, which joining does not double.  So a joined path
extends the **stem** of the directory's spelling, the spelling without that slash.
-/

namespace TclAtlas

/-! ## Normal components -/

/-- **A normal component** of a path: a stretch that stands for a name. -/
def Component.IsName (n : Bytes) : Prop := n ≠ [] ∧ n ≠ [dot] ∧ n ≠ [dot, dot] ∧ slash ∉ n

namespace Component

instance (n : Bytes) : Decidable (IsName n) := inferInstanceAs (Decidable (_ ∧ _))

theorem ofInner?_of_ne {n : Bytes} (hne : n ≠ []) (hdot : n ≠ [dot]) (hdots : n ≠ [dot, dot]) :
    ofInner? n = some (normal n) := by
  rw [ofInner?, if_neg (not_or.mpr ⟨hne, hdot⟩), if_neg hdots]

theorem IsName.ofInner? {n : Bytes} (h : IsName n) : ofInner? n = some (normal n) :=
  ofInner?_of_ne h.1 h.2.1 h.2.2.1

/-- The names that entries of directories have are normal components. -/
theorem isName_of_isEntryName {n : Bytes} (h : isEntryName n = true) : IsName n := by
  simp only [isEntryName, Bool.and_eq_true, bne_iff_ne, ne_eq, Bool.not_eq_true',
    List.contains_eq_mem, decide_eq_false_iff_not] at h
  obtain ⟨⟨⟨⟨⟨hne, hdot⟩, hdots⟩, hslash⟩, -⟩, -⟩ := h
  exact ⟨hne, hdot, hdots, hslash⟩

theorem filterMap_name?_normal (ns : List Bytes) : (ns.map normal).filterMap name? = ns := by
  rw [List.filterMap_map]
  exact List.filterMap_some

end Component

namespace Path

/-! ## Joining with one name -/

/-- The spelling without a slash at the end. -/
def stem (p : Path) : Bytes :=
  if p.spelling.getLast? = some slash then p.spelling.dropLast else p.spelling

/-- The stretches of the stem, which those of joined paths begin with. -/
def trunk (p : Path) : List Bytes := p.stem.splitOnP (· == slash)

theorem spelling_join {p : Path} (hp : p.spelling ≠ []) (n : Bytes) :
    (p.join n).spelling = p.stem ++ slash :: n := by
  obtain ⟨t, c, h⟩ := (List.eq_nil_or_concat' p.spelling).resolve_left hp
  have hlast : p.spelling.getLast? = some c := by simp [h]
  rw [join, hlast, stem, hlast]
  by_cases hc : c = slash
  · simp [hc, h]
  · simp [hc]

theorem stretches_join {p : Path} (hp : p.spelling ≠ []) {n : Bytes} (hn : slash ∉ n) :
    (p.join n).stretches = p.trunk ++ [n] := by
  have hwhole : n.splitOnP (· == slash) = [n] :=
    List.splitOnP_eq_singleton fun c hc => beq_false_of_ne fun h => hn (h ▸ hc)
  rw [stretches, spelling_join hp, List.splitOnP_append_cons _ _ (by simp), hwhole, trunk]

/-- The stretches of a path are those of its stem, and an empty one if there is a slash at the
end. -/
theorem stretches_cases {p : Path} (hp : p.spelling ≠ []) :
    (p.stretches = p.trunk ∧ p.stem ≠ []) ∨ p.stretches = p.trunk ++ [[]] := by
  by_cases h : p.spelling.getLast? = some slash
  · refine Or.inr ?_
    have hsplit : p.spelling = p.stem ++ slash :: [] := by
      rw [stem, if_pos h]
      exact (List.dropLast_append_getLast? slash h).symm
    rw [stretches, hsplit, List.splitOnP_append_cons _ _ (by simp), trunk, List.splitOnP_nil]
  · have hstem : p.stem = p.spelling := by rw [stem, if_neg h]
    refine Or.inl ⟨?_, ?_⟩
    · rw [trunk, hstem, stretches]
    · rwa [hstem]

theorem spelling_join_ne_nil {p : Path} (hp : p.spelling ≠ []) (n : Bytes) :
    (p.join n).spelling ≠ [] := by
  rw [spelling_join hp]
  simp

theorem trunk_join {p : Path} (hp : p.spelling ≠ []) {n : Bytes} (hn : Component.IsName n) :
    (p.join n).trunk = p.trunk ++ [n] := by
  obtain ⟨hne, -, -, hslash⟩ := hn
  have hlast : (p.join n).spelling.getLast? ≠ some slash := by
    obtain ⟨t, c, rfl⟩ := (List.eq_nil_or_concat' n).resolve_left hne
    have hc : c ≠ slash := fun h => hslash (by simp [h])
    rw [spelling_join hp, ← List.cons_append, ← List.append_assoc,
      List.getLast?_concat]
    simpa using hc
  rw [← stretches_join hp hslash, trunk, stem, if_neg hlast, stretches]

/-- Only the empty stem has the empty stretch alone. -/
theorem trunk_ne_of_stem_ne {p : Path} (h : p.stem ≠ []) : p.trunk ≠ [[]] := by
  obtain ⟨c, cs, hstem⟩ := List.exists_cons_of_ne_nil h
  obtain ⟨t, ts, ht⟩ := List.exists_cons_of_ne_nil (List.splitOnP_ne_nil (· == slash) cs)
  rw [trunk, hstem, List.splitOnP_cons_eq_if_modifyHead, ht]
  split <;> simp

theorem components_of_stretches {p : Path} {s : Bytes} {ss : List Bytes}
    (h : p.stretches = s :: ss) : p.components =
      (Component.ofFirst? (!ss.isEmpty) s).toList ++ ss.filterMap Component.ofInner? := by
  rw [components, h]

/-- **The components of a joined path** are those of the directory and the name. -/
theorem components_join {p : Path} (hp : p.spelling ≠ []) {n : Bytes} (hn : Component.IsName n) :
    (p.join n).components = p.components ++ [.normal n] := by
  have hjoin := stretches_join hp hn.2.2.2
  obtain ⟨s, ss, htrunk⟩ : ∃ s ss, p.trunk = s :: ss :=
    List.exists_cons_of_ne_nil (List.splitOnP_ne_nil _ _)
  rw [htrunk, List.cons_append] at hjoin
  have hmore : ∀ t : Bytes, (!(ss ++ [t]).isEmpty) = true := by simp
  have hname : [n].filterMap Component.ofInner? = [.normal n] := by simp [hn.ofInner?]
  have hnone : [[]].filterMap Component.ofInner? = [] := rfl
  rcases stretches_cases hp with ⟨h, hstem⟩ | h
  · rw [htrunk] at h
    have hfirst : Component.ofFirst? (!ss.isEmpty) s = Component.ofFirst? true s := by
      rcases ss with _ | ⟨s', ss⟩
      · have hs : s ≠ [] := fun hs => trunk_ne_of_stem_ne hstem (hs ▸ htrunk)
        rw [Component.ofFirst?, Component.ofFirst?, if_neg hs, if_neg hs]
      · rfl
    rw [components_of_stretches hjoin, components_of_stretches h, hmore, hfirst,
      List.filterMap_append, hname, List.append_assoc]
  · rw [htrunk, List.cons_append] at h
    rw [components_of_stretches hjoin, components_of_stretches h, hmore, hmore,
      List.filterMap_append, List.filterMap_append, hname, hnone, List.append_nil,
      List.append_assoc]

/-! ## Joining with several names -/

/-- **The path below a directory** that some names lead down to. -/
def descend (p : Path) (ns : List Bytes) : Path := ns.foldl join p

theorem descend_concat (p : Path) (ns : List Bytes) (n : Bytes) :
    p.descend (ns ++ [n]) = (p.descend ns).join n := List.foldl_append

theorem descend_cons (p : Path) (n : Bytes) (ns : List Bytes) :
    p.descend (n :: ns) = (p.join n).descend ns := rfl

theorem spelling_descend_ne_nil : ∀ {p : Path} (_ : p.spelling ≠ []) (ns : List Bytes),
    (p.descend ns).spelling ≠ []
  | _, hp, [] => hp
  | _, hp, n :: ns => spelling_descend_ne_nil (spelling_join_ne_nil hp n) ns

/-- **The components of a path below a directory** are those of the directory and the names. -/
theorem components_descend : ∀ {p : Path} (_ : p.spelling ≠ []) {ns : List Bytes}
    (_ : ∀ n ∈ ns, Component.IsName n), (p.descend ns).components = p.components ++ ns.map .normal
  | p, _, [], _ => by simp [descend]
  | p, hp, n :: ns, hns => by
    obtain ⟨hn, hns⟩ := List.forall_mem_cons.mp hns
    rw [descend_cons, components_descend (spelling_join_ne_nil hp n) hns, components_join hp hn,
      List.append_assoc]
    rfl

theorem trunk_descend : ∀ {p : Path} (_ : p.spelling ≠ []) {ns : List Bytes}
    (_ : ∀ n ∈ ns, Component.IsName n), (p.descend ns).trunk = p.trunk ++ ns
  | p, _, [], _ => by simp [descend]
  | p, hp, n :: ns, hns => by
    obtain ⟨hn, hns⟩ := List.forall_mem_cons.mp hns
    rw [descend_cons, trunk_descend (spelling_join_ne_nil hp n) hns, trunk_join hp hn,
      List.append_assoc]
    rfl

/-- **The stretches of a path below a directory** end in the names. -/
theorem stretches_descend {p : Path} (hp : p.spelling ≠ []) {ns : List Bytes}
    (hns : ∀ n ∈ ns, Component.IsName n) (hne : ns ≠ []) :
    (p.descend ns).stretches = p.trunk ++ ns := by
  obtain ⟨ms, n, rfl⟩ := (List.eq_nil_or_concat' ns).resolve_left hne
  have hms : ∀ m ∈ ms, Component.IsName m := fun m hm => hns m (by simp [hm])
  rw [descend_concat, stretches_join (spelling_descend_ne_nil hp ms)
    (hns n (by simp)).2.2.2, trunk_descend hp hms, List.append_assoc]

/-- **Different names lead to different paths.** -/
theorem descend_injective {p : Path} (hp : p.spelling ≠ []) {ns ms : List Bytes}
    (hns : ∀ n ∈ ns, Component.IsName n) (hms : ∀ m ∈ ms, Component.IsName m)
    (h : (p.descend ns).components = (p.descend ms).components) : ns = ms := by
  rw [components_descend hp hns, components_descend hp hms] at h
  have hmap : ns.map Component.normal = ms.map Component.normal := List.append_cancel_left h
  exact (List.map_inj_right fun _ _ h => Component.normal.inj h).mp hmap

theorem after?_append [DecidableEq α] : ∀ l m : List α, after? l (l ++ m) = some m
  | [], _ => rfl
  | a :: l, m => by rw [List.cons_append, after?, if_pos rfl, after?_append l m]

theorem below?_descend {p : Path} (hp : p.spelling ≠ []) {ns : List Bytes}
    (hns : ∀ n ∈ ns, Component.IsName n) : (p.descend ns).below? p = some (ns.map .normal) := by
  rw [below?, components_descend hp hns, after?_append]

/-! ## Spellings grow -/

theorem holdsNul_join (p : Path) (n : Bytes) :
    (p.join n).holdsNul = (p.holdsNul || n.contains nul) := by
  rw [join]
  split
  · next h =>
    rw [holdsNul, holdsNul, List.getLast?_eq_none_iff.mp h]
    rfl
  · split
    · simp [holdsNul]
    · simp [holdsNul, show nul ≠ slash by decide]

/-- Names without the byte that no path may hold add none. -/
theorem holdsNul_descend : ∀ {p : Path} {ns : List Bytes}, (∀ n ∈ ns, n.contains nul = false) →
    (p.descend ns).holdsNul = p.holdsNul
  | _, [], _ => rfl
  | p, n :: ns, h => by
    obtain ⟨hn, hns⟩ := List.forall_mem_cons.mp h
    rw [descend_cons, holdsNul_descend hns, holdsNul_join, hn, Bool.or_false]

/-- The spelling of a directory is the beginning of those of the paths below it. -/
theorem exists_spelling_descend : ∀ {p : Path} (_ : p.spelling ≠ []) (ns : List Bytes),
    ∃ t, (p.descend ns).spelling = p.spelling ++ t
  | p, _, [] => ⟨[], (List.append_nil _).symm⟩
  | p, hp, n :: ns => by
    obtain ⟨t, ht⟩ := exists_spelling_descend (spelling_join_ne_nil hp n) ns
    obtain ⟨u, hu⟩ : ∃ u, (p.join n).spelling = p.spelling ++ u := by
      rw [join]
      split
      · next h => exact absurd (List.getLast?_eq_none_iff.mp h) hp
      · split
        · exact ⟨n, rfl⟩
        · exact ⟨slash :: n, rfl⟩
    exact ⟨u ++ t, by rw [descend_cons, ht, hu, List.append_assoc]⟩

/-- **Below a path that is too long** all paths are. -/
theorem isTooLong_descend {p : Path} (hp : p.spelling ≠ []) (ns : List Bytes)
    (h : p.isTooLong = true) : (p.descend ns).isTooLong = true := by
  obtain ⟨t, ht⟩ := exists_spelling_descend hp ns
  have hlong : maxBytes < p.spelling.length := of_decide_eq_true h
  rw [isTooLong, ht, List.length_append]
  exact decide_eq_true (by omega)

theorem isTooLong_of_descend {p : Path} (hp : p.spelling ≠ []) (ns : List Bytes)
    (h : (p.descend ns).isTooLong = false) : p.isTooLong = false :=
  Bool.eq_false_iff.mpr fun hlong => Bool.eq_false_iff.mp h (isTooLong_descend hp ns hlong)

theorem isAbsolute_descend {p : Path} (hp : p.spelling ≠ []) (ns : List Bytes) :
    (p.descend ns).isAbsolute = p.isAbsolute := by
  obtain ⟨t, ht⟩ := exists_spelling_descend hp ns
  obtain ⟨c, cs, hc⟩ := List.exists_cons_of_ne_nil hp
  rw [isAbsolute, isAbsolute, ht, hc]
  rfl

end Path

namespace Selection

/-- **A path below the only search path** is accepted for its extension, unless one of the names
down to it is excluded. -/
theorem accepts_descend_iff {sel : Selection} {r : Path} (hsel : sel.searchPaths = [r])
    (hr : r.spelling ≠ []) {ns : List Bytes} (hns : ∀ n ∈ ns, Component.IsName n) :
    sel.accepts (r.descend ns) = true ↔
      sel.hasExtension (r.descend ns) = true ∧ ∀ n ∈ ns, sel.excludes n = false := by
  have hrelative : sel.relative (r.descend ns) = ns.map .normal := by
    rw [relative, hsel, List.findSome?_cons, Path.below?_descend hr hns, Option.getD_some]
  rw [accepts, hrelative, Component.filterMap_name?_normal]
  simp

end Selection

end TclAtlas
