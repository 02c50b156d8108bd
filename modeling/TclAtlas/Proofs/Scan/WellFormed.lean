import TclAtlas.Proofs.Outline.WellFormed
import TclAtlas.Proofs.Scan.Commands
import TclAtlas.Proofs.Scan.Scopes
import TclAtlas.Proofs.Word.Names

/-!
# Proofs/Scan/WellFormed — what holds of every outline that a scan makes

However the lines of a file are scanned, in whatever order, again or not at all, the outline is
well formed (`Scanner.wellFormed_foldl_scanLine`).  All findings of a line fit any outline, except
those of a literal.  These come from the outside in: the name of a nested dictionary is among the
keys found before its own (`Outline.WellFormed.addAll_ofDict`).
-/

namespace TclAtlas

/-! ## The keys of a literal -/

namespace DictEntry

mutual

/-- **The keys of an entry are identifiers**, its own and those nested in its value. -/
def Keyed : DictEntry → Prop
  | .plain k _ => Text.isIdentifier k = true
  | .nested k _ inner => Text.isIdentifier k = true ∧ AllKeyed inner

@[inherit_doc Keyed]
def AllKeyed : List DictEntry → Prop
  | [] => True
  | e :: es => e.Keyed ∧ AllKeyed es

end

theorem allKeyed_iff {es : List DictEntry} : AllKeyed es ↔ ∀ e ∈ es, e.Keyed := by
  induction es with
  | nil => simp [AllKeyed]
  | cons e es ih => rw [AllKeyed, ih, List.forall_mem_cons]

theorem Keyed.isIdentifier_key : ∀ {e : DictEntry}, e.Keyed → Text.isIdentifier e.key = true
  | .plain _ _, h => h
  | .nested _ _ _, h => h.1

end DictEntry

namespace DictLiteral

theorem isIdentifier_of_mem_bodyPairs {body : Text} {p : Text × Text}
    (h : p ∈ entriesWithin.bodyPairs body) : Text.isIdentifier p.1 = true := by
  obtain ⟨q, -, hq⟩ := List.mem_filterMap.mp h
  obtain ⟨k, hk, rfl⟩ := Option.map_eq_some_iff.mp hq
  exact Text.isIdentifier_of_identifier? hk

/-- **All keys of a literal are identifiers**, at every level that is opened. -/
theorem allKeyed_entriesWithin : ∀ (levels : Nat) (body : Text),
    DictEntry.AllKeyed (entriesWithin levels body)
  | 0, body => by
    refine DictEntry.allKeyed_iff.mpr fun e he => ?_
    obtain ⟨p, hp, rfl⟩ := List.mem_map.mp he
    exact isIdentifier_of_mem_bodyPairs hp
  | levels + 1, body => by
    refine DictEntry.allKeyed_iff.mpr fun e he => ?_
    obtain ⟨⟨k, v⟩, hp, rfl⟩ := List.mem_map.mp he
    have hkey : Text.isIdentifier k = true := isIdentifier_of_mem_bodyPairs hp
    simp only
    split
    · exact ⟨hkey, allKeyed_entriesWithin levels _⟩
    · exact hkey

end DictLiteral

/-! ## The findings of a literal -/

namespace Outline

/-- **The keys of a literal** fit when its parent has its name as a key. -/
theorem WellFormed.addAll_ofKeys {o : Outline} (h : o.WellFormed) {name : Text}
    {parent : Option Text} {es : List DictEntry} (location : Location)
    (hname : Text.isSymbolName name = true) (hparent : ∀ p, parent = some p → o.HasKey p name)
    (hes : DictEntry.AllKeyed es) :
    (o.addAll (Finding.ofKeys location name parent es)).WellFormed ∧
      ∀ e ∈ es, (o.addAll (Finding.ofKeys location name parent es)).HasKey name e.key := by
  rcases es with _ | ⟨e, es⟩
  · exact ⟨h, fun _ he => absurd he List.not_mem_nil⟩
  · refine ⟨h.add_dictKeys ⟨hname, List.cons_ne_nil _ _, fun k hk => ?_, hparent⟩,
      fun e' he => hasKey_add_dictKeys (List.mem_map_of_mem he) parent location⟩
    obtain ⟨e', he, rfl⟩ := List.mem_map.mp hk
    exact (DictEntry.allKeyed_iff.mp hes e' he).isIdentifier_key

mutual

/-- **The findings in the value of an entry** leave an outline well formed that has the entry's
key: the dictionary nested in it has its parent, and has its own keys before those inside them. -/
theorem WellFormed.addAll_ofValue {o : Outline} (h : o.WellFormed) (location : Location)
    (name : Text) : ∀ {e : DictEntry}, e.Keyed → o.HasKey name e.key →
      (o.addAll (Finding.ofValue location name e)).WellFormed
  | .plain _ _, _, _ => h
  | .nested k _ inner, he, hkey => by
    obtain ⟨hk, hinner⟩ := he
    have hparent : ∀ p, some name = some p → o.HasKey p k := fun _ hp => Option.some.inj hp ▸ hkey
    obtain ⟨hwf, hkeys⟩ := h.addAll_ofKeys location (Text.isSymbolName_of_isIdentifier hk) hparent
      hinner
    rw [Finding.ofValue, addAll_append]
    exact hwf.addAll_ofValues location k hinner hkeys

theorem WellFormed.addAll_ofValues {o : Outline} (h : o.WellFormed) (location : Location)
    (name : Text) : ∀ {es : List DictEntry}, DictEntry.AllKeyed es →
      (∀ e ∈ es, o.HasKey name e.key) → (o.addAll (Finding.ofValues location name es)).WellFormed
  | [], _, _ => h
  | e :: es, ⟨he, hes⟩, hkeys => by
    rw [Finding.ofValues, addAll_append]
    refine (h.addAll_ofValue location name he (hkeys e List.mem_cons_self)).addAll_ofValues
      location name hes fun e' he' => ?_
    exact (hkeys e' (List.mem_cons_of_mem e he')).addAll _

end

/-- **A literal's findings leave an outline well formed.** -/
theorem WellFormed.addAll_ofDict {o : Outline} (h : o.WellFormed) (location : Location)
    {name : Text} (hname : Text.isSymbolName name = true) {es : List DictEntry}
    (hes : DictEntry.AllKeyed es) : (o.addAll (Finding.ofDict location name es)).WellFormed := by
  have hparent : ∀ p, none = some p → o.HasKey p name := fun _ hp => absurd hp (by simp)
  obtain ⟨hwf, hkeys⟩ := h.addAll_ofKeys location hname hparent hes
  rw [Finding.ofDict, addAll_append]
  exact hwf.addAll_ofValues location name hes hkeys

end Outline

/-! ## The findings of a line -/

/-- **A pattern imports** a namespace other than the root, or a qualified name. -/
theorem Import.proper_of_ofPattern? {p : Text} {i : Import}
    (h : Import.ofPattern? p = some i) : i.Proper := by
  rw [Import.ofPattern?] at h
  split at h
  · exact absurd h (by simp)
  split at h
  · obtain ⟨ns, hns, rfl⟩ := Option.map_eq_some_iff.mp h
    exact (Name.asNamespace_eq_some_iff.mp hns).2
  · obtain ⟨hq, hi⟩ := Option.ite_none_right_eq_some.mp h
    obtain rfl := Option.some.inj hi
    exact hq

namespace ScanState

open Finding

variable (s : ScanState) (l : LineAt) (words : List Word)

theorem fitAnywhere_definitionFindings : FitAnywhere (s.definitionFindings l words) := by
  rw [definitionFindings]
  split
  · exact fitAnywhere_nil
  split
  · exact fitAnywhere_nil
  · next hmake => exact fitAnywhere_singleton fun _ => Definition.wellNamed_of_make? hmake

theorem fitAnywhere_dictSetFindings : FitAnywhere (dictSetFindings l words) := by
  rw [dictSetFindings.eq_def]
  split
  · split
    · next hset =>
      split
      · exact fitAnywhere_nil
      · next k hk =>
        have hkeys : ∀ k' ∈ [k], Text.isIdentifier k' = true := fun k' hk' =>
          List.mem_singleton.mp hk' ▸ Text.isIdentifier_of_identifier? hk
        exact fitAnywhere_singleton fun _ =>
          ⟨hset.2, List.cons_ne_nil _ _, hkeys, fun _ hp => absurd hp (by simp)⟩
    · exact fitAnywhere_nil
  · exact fitAnywhere_nil

theorem fitAnywhere_matchBlock : FitAnywhere (s.matchBlock words).2 := by
  rw [matchBlock.eq_def]
  split
  · simp only
    split
    · next hblock => exact fitAnywhere_singleton fun _ => hblock.2.2
    · exact fitAnywhere_nil
  · exact fitAnywhere_nil

theorem fitAnywhere_importFindings : FitAnywhere (importFindings words) := by
  intro f hf o
  obtain ⟨w, -, hw⟩ := List.mem_filterMap.mp hf
  obtain ⟨i, hi, rfl⟩ := Option.map_eq_some_iff.mp hw
  exact Import.proper_of_ofPattern? hi

/-- **A binding and the dictionary it describes** leave an outline well formed. -/
theorem wellFormed_addAll_matchSet {o : Outline} (h : o.WellFormed) :
    (o.addAll (s.matchSet l words).2).WellFormed := by
  rw [matchSet.eq_def]
  split
  · simp only
    split
    · next hname =>
      rw [Outline.addAll_append]
      refine Outline.WellFormed.add (f := .binding _) ?_ trivial
      rw [literalFindings]
      split
      · exact h
      · exact h.addAll_ofDict _ hname (DictLiteral.allKeyed_entriesWithin _ _)
    · exact h
  · exact h

/-- **A line leaves an outline well formed**, whatever its words. -/
theorem wellFormed_addAll_matchLine {o : Outline} (h : o.WellFormed) :
    (o.addAll (s.matchLine l).2).WellFormed :=
  matchLine_rec (motive := fun found => (o.addAll found.2).WellFormed) h
    (h.addAll (s.fitAnywhere_definitionFindings l _))
    (fun _ _ _ _ => s.wellFormed_addAll_matchSet l _ h) (h.addAll (s.fitAnywhere_matchBlock _))
    (h.addAll (fitAnywhere_importFindings _)) (h.addAll (fitAnywhere_dictSetFindings l _))

end ScanState

/-! ## Scans -/

namespace Scanner

/-- **A line of a scan** keeps its outline well formed. -/
theorem wellFormed_step {s : Scanner} (h : s.outline.WellFormed) (l : LineAt) :
    (s.step l).outline.WellFormed := by
  change (s.outline.addAll (s.state.step l).2).WellFormed
  rw [ScanState.step_snd]
  split
  · exact h
  · exact s.state.wellFormed_addAll_matchLine l h

/-- **A number** is that of a line, which is read, or does nothing. -/
theorem scanLine_cases (file : FileId) (lines : List Text) (s : Scanner) (number : Nat) :
    scanLine file lines s number = s ∨ ∃ l, scanLine file lines s number = s.step l := by
  rw [scanLine]
  split
  · exact Or.inl rfl
  · exact Or.inr ⟨_, rfl⟩

/-- **What every line keeps** holds of scans in any order. -/
theorem foldl_scanLine_of_step {P : Scanner → Prop} (hstart : P start)
    (hstep : ∀ s, P s → ∀ l, P (s.step l)) (file : FileId) (lines : List Text)
    (numbers : List Nat) : P (numbers.foldl (scanLine file lines) start) := by
  refine List.foldlRecOn numbers _ hstart fun s hs number _ => ?_
  rcases scanLine_cases file lines s number with h | ⟨l, h⟩ <;> rw [h]
  · exact hs
  · exact hstep s hs l

/-- **Lines scanned in any order** make a well-formed outline. -/
theorem wellFormed_foldl_scanLine (file : FileId) (lines : List Text) (numbers : List Nat) :
    (numbers.foldl (scanLine file lines) start).outline.WellFormed :=
  foldl_scanLine_of_step (P := fun s => s.outline.WellFormed) Outline.wellFormed_empty
    (fun _ h l => wellFormed_step h l) file lines numbers

/-- **Whatever lines are scanned, and in whatever order**, names are proper and nothing is kept
twice.  Namespaces and imports are all different.  Namespaces are not empty, and an import is of a
namespace that is not empty or of a qualified name.  The name of a definition is not empty and not
qualified, and its qualified name is made of it and the owner, which is not empty.  A dictionary is
filed under its own name; it has keys, all different, which are identifiers; and if it has a parent,
this is a dictionary of the same outline that has the name among its keys. -/
theorem outline_foldl_scanLine (file : FileId) (lines : List Text) (numbers : List Nat) :
    let o := (numbers.foldl (scanLine file lines) start).outline
    (o.namespaces.Nodup ∧ ∀ ns ∈ o.namespaces, ns ≠ []) ∧
    (o.imports.Nodup ∧ (∀ ns, .wildcard ns ∈ o.imports → ns ≠ []) ∧
      ∀ n, .member n ∈ o.imports → Name.separator <:+: n) ∧
    (∀ d ∈ o.definitions, d.name ≠ [] ∧ ¬ Name.separator <:+: d.name ∧ d.owner ≠ some [] ∧
      d.qualifiedName = d.owner.elim d.name fun ns => ns ++ Name.separator ++ d.name) ∧
    ∀ n d, o.dicts.get? n = some d →
      d.name = n ∧ d.keys ≠ [] ∧ d.keys.Nodup ∧ (∀ k ∈ d.keys, Text.isIdentifier k = true) ∧
      ∀ p, d.parent = some p → ∃ e, o.dicts.get? p = some e ∧ e.name = p ∧ d.name ∈ e.keys := by
  intro o
  have h : o.WellFormed := wellFormed_foldl_scanLine file lines numbers
  have hname : ∀ n d, o.dicts.get? n = some d → d.name = n := fun n d hd =>
    h.ownNames n d ((OrderedMap.get?_eq_some_iff ..).mp hd)
  refine ⟨⟨h.nodup_namespaces, h.ne_nil_of_mem_namespaces⟩,
    ⟨h.nodup_imports, fun ns hns => h.proper_imports _ hns, fun n hn => ?_⟩, fun d hd => ?_,
    fun n d hd => ?_⟩
  · exact Name.isQualified_iff.mp (h.proper_imports _ hn)
  · obtain ⟨hne, hplain, howner⟩ := h.wellNamed d hd
    refine ⟨hne, fun hsep => ?_, howner, ?_⟩
    · exact absurd (Name.isQualified_iff.mpr hsep) (by simp [hplain])
    · rw [Definition.qualifiedName]
      rcases d.owner with _ | ns <;> rfl
  · have hproper := h.proper_dicts n d hd
    refine ⟨hname n d hd, h.keys_ne_nil n d hd, hproper.nodup_keys, hproper.isIdentifier,
      fun p hp => ?_⟩
    obtain ⟨e, he, hkey⟩ := h.hasKey_parent n d p hd hp
    exact ⟨e, he, hname p e he, (hname n d hd).symm ▸ hkey⟩

/-- A dictionary first found on its own and then, on a line scanned later and twice, as nested. -/
theorem outline_foldl_scanLine_nested :
    let lines := ["set a [dict create b [dict create c 1]]".toList, "dict set b k v".toList]
    let o := ([1, 0, 7, 0].foldl (scanLine ⟨0⟩ lines) start).outline
    let b : DictShape := ⟨['b'], [['k'], ['c']], some ['a'], ⟨⟨0⟩, 1, 9⟩⟩
    o.dicts.get? ['b'] = some b ∧ ∃ e, o.dicts.get? ['a'] = some e ∧ ['b'] ∈ e.keys := by
  intro lines o b
  have hb : o.dicts.get? ['b'] = some b := by decide +kernel
  obtain ⟨-, -, -, hdicts⟩ := outline_foldl_scanLine ⟨0⟩ lines [1, 0, 7, 0]
  obtain ⟨-, -, -, -, hparent⟩ := hdicts ['b'] b hb
  obtain ⟨e, he, -, hkey⟩ := hparent ['a'] rfl
  exact ⟨hb, e, he, hkey⟩

end Scanner

/-! ## Catalogs of scans -/

/-- **The outline of a scan**, of whatever lines in whatever order. -/
def Outline.Scanned (o : Outline) : Prop :=
  ∃ (file : FileId) (lines : List Text) (numbers : List Nat),
    o = (numbers.foldl (Scanner.scanLine file lines) .start).outline

theorem Outline.scanned_scanText (file : FileId) (text : Text) : (scanText file text).Scanned :=
  ⟨file, Text.lines text, List.range (Text.lines text).length,
    (Scanner.foldl_scanLine file (Text.lines text)).symm⟩

theorem Outline.Scanned.wellFormed {o : Outline} (h : o.Scanned) : o.WellFormed := by
  obtain ⟨file, lines, numbers, rfl⟩ := h
  exact Scanner.wellFormed_foldl_scanLine file lines numbers

/-- **The definitions of a scan are well named.** -/
theorem wellNamed_of_mem_scanText {file : FileId} {text : Text} {d : Definition}
    (hd : d ∈ (scanText file text).definitions) : d.WellNamed :=
  (Outline.scanned_scanText file text).wellFormed.wellNamed d hd

/-- **In a catalog of scans** all outlines are well formed, whatever its history. -/
theorem Catalog.wellFormed_replay {us : List CatalogUpdate}
    (hus : ∀ u ∈ us, ∀ o ∈ u.given, o.Scanned) : AllOutlines Outline.WellFormed (replay us) :=
  allOutlines_replay (fun file text => (Outline.scanned_scanText file text).wellFormed)
    fun u hu o ho => (hus u hu o ho).wellFormed

/-- Its definitions are well named. -/
theorem Catalog.wellNamed_of_scanned {us : List CatalogUpdate}
    (hus : ∀ u ∈ us, ∀ o ∈ u.given, o.Scanned) :
    ∀ d ∈ (replay us).definitions, d.WellNamed := by
  intro d hd
  obtain ⟨o, ho, hd⟩ := List.mem_flatMap.mp hd
  exact ((wellFormed_replay hus).of_mem_values ho).wellNamed d hd

end TclAtlas
