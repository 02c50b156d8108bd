import TclAtlas.Proofs.Ledger.Run
import TclAtlas.Proofs.Registry.Growth
import Mathlib.Data.List.Forall2
import Mathlib.Data.List.Induction

/-!
# Proofs/Ledger/DirectUpdates — a ledger as an ordered map from paths to texts

Without tickets from outside, a ledger is used by its **direct updates**: setting the text of a
path, taking a path out, and rebuilding from a list of files.  Each of them goes by a ticket of its
own, but none of these is ever stale and no rebuild ever finds a file newer than itself, as nothing
else is stamped in between.  So the ledger holds exactly the texts that an ordered map would hold
after the same updates (`Ledger.Holds`, preserved by each update), file by file and in the same
order (`Ledger.direct_updates_refine_texts`).
-/

namespace TclAtlas

/-! ## Lists that correspond entry by entry -/

namespace Entries

variable {κ κ' : Type u} {ν ν' : Type v}

/-- **Entries go on corresponding** when corresponding entries are put on both sides. -/
theorem forall₂_put [DecidableEq κ] [DecidableEq κ'] {R : κ × ν → κ' × ν' → Prop} {e : κ × ν}
    {f : κ' × ν'} (hnew : R e f) (hkey : ∀ a b, R a b → (a.1 = e.1 ↔ b.1 = f.1))
    {es : List (κ × ν)} {fs : List (κ' × ν')} (h : List.Forall₂ R es fs) :
    List.Forall₂ R (put e.1 e.2 es) (put f.1 f.2 fs) := by
  induction h with
  | nil => exact .cons hnew .nil
  | @cons a b es fs hab hrest ih =>
    rw [put, put]
    by_cases ha : a.1 = e.1
    · rw [if_pos ha, if_pos ((hkey a b hab).mp ha)]
      exact .cons hnew hrest
    · rw [if_neg ha, if_neg fun hb => ha ((hkey a b hab).mpr hb)]
      exact .cons hab ih

/-- Every entry on the one side has one on the other. -/
theorem exists_of_forall₂ {R : κ × ν → κ' × ν' → Prop} {es : List (κ × ν)} {fs : List (κ' × ν')}
    (h : List.Forall₂ R es fs) {f : κ' × ν'} (hf : f ∈ fs) : ∃ e ∈ es, R e f := by
  induction h with
  | nil => exact absurd hf (by simp)
  | cons hab _ ih =>
    rcases List.mem_cons.mp hf with rfl | hf
    · exact ⟨_, List.mem_cons_self, hab⟩
    · obtain ⟨e, he, hR⟩ := ih hf
      exact ⟨e, List.mem_cons_of_mem _ he, hR⟩

end Entries

/-! ## Direct updates -/

/-- **A direct update of a ledger.** -/
inductive DirectUpdate
  | setText (p : FileKey) (text : Text)
  | removePath (p : FileKey)
  | rebuild (files : List (FileKey × Text))

namespace OrderedMap

variable {κ : Type u} {ν : Type v} [DecidableEq κ]

/-- The map with several values given in order. -/
def insertAll (m : OrderedMap κ ν) (es : List (κ × ν)) : OrderedMap κ ν :=
  es.foldl (fun m e => m.insert e.1 e.2) m

end OrderedMap

/-- **Texts by path**, in the order in which the paths came in. -/
abbrev TextMap := OrderedMap FileKey Text

/-- The texts after a direct update. -/
def TextMap.update (m : TextMap) : DirectUpdate → TextMap
  | .setText p text => m.insert p text
  | .removePath p => m.erase p
  | .rebuild files => .insertAll .empty files

/-- **The texts after direct updates**, from none on. -/
def TextMap.replay (us : List DirectUpdate) : TextMap := us.foldl update .empty

namespace Ledger

/-- The ledger after a direct update. -/
def update (l : Ledger) : DirectUpdate → Ledger
  | .setText p text => (l.setText p text).2
  | .removePath p => (l.removePath p).2
  | .rebuild files => l.rebuild files

/-- **The ledger after direct updates**, from the fresh one on. -/
def replay (order : Arrangement) (us : List DirectUpdate) : Ledger := us.foldl update (fresh order)

/-! ## What direct updates do to the catalog -/

/-- Setting a text always takes effect. -/
theorem setText_eq {l : Ledger} (h : l.Timely) (p : FileKey) (text : Text) :
    (l.setText p text).1 = (l.registry.register p).1 ∧
      (l.setText p text).2.registry = (l.registry.register p).2 ∧
      (l.setText p text).2.catalog = l.catalog.apply (l.registry.register p).1
        (scanText (l.registry.register p).1 text) := by
  have hfresh := (h.register p).isStale_issue (l.register p).1
  refine ⟨rfl, ?_, ?_⟩
  · rw [setText_snd, registry_commit]
    rfl
  · rw [setText_snd, commit_of_not_stale hfresh]
    rfl

/-- A path without a number is not taken out, as it is not there. -/
theorem removePath_of_get?_eq_none {l : Ledger} {p : FileKey} (hp : l.registry.get? p = none) :
    l.removePath p = (false, l) := by
  rw [removePath, hp]

/-- Taking out a path with a number always takes effect. -/
theorem removePath_eq {l : Ledger} (h : l.Timely) {p : FileKey} {file : FileId}
    (hp : l.registry.get? p = some file) :
    (l.removePath p).1 = l.catalog.contains file ∧
      (l.removePath p).2.registry = l.registry ∧
      (l.removePath p).2.catalog = l.catalog.remove file := by
  have hremove : l.removePath p = (l.issue file).2.commit (l.issue file).1 none := by
    rw [removePath, hp]
  rw [hremove, commit_of_not_stale (h.isStale_issue file)]
  exact ⟨rfl, rfl, rfl⟩

/-- A rebuild starts the catalog anew. -/
theorem rebuild_catalog_eq {l : Ledger} (h : l.Timely) (files : List (FileKey × Text)) :
    (l.rebuild files).registry = (l.registry.registerAll (files.map Prod.fst)).2 ∧
      (l.rebuild files).catalog = .ofOutlines (l.rebuildOutlines files) := by
  have hnewer := h.newerThan_beginRebuild (l.registry.registerAll (files.map Prod.fst)).2
  have hrebuild : l.rebuild files =
      (Ledger.commitRebuild { l.beginRebuild.2 with
        registry := (l.registry.registerAll (files.map Prod.fst)).2 }
          l.beginRebuild.1 (l.rebuildOutlines files)).2 := rfl
  have hgeneration : ¬l.beginRebuild.1.generation ≠ l.beginRebuild.2.generation :=
    not_not.mpr rfl
  rw [hrebuild, commitRebuild, if_neg hgeneration]
  refine ⟨rfl, ?_⟩
  change Catalog.ofOutlines _ = _
  rw [hnewer]
  simp

/-! ## The refinement -/

/-- A file has the number of a path and the outline of the text there. -/
def HoldsText (l : Ledger) (e : FileId × Outline) (f : FileKey × Text) : Prop :=
  l.registry.get? f.1 = some e.1 ∧ e.2 = scanText e.1 f.2

/-- **A ledger holds just the texts of a map**, each in its place. -/
structure Holds (l : Ledger) (m : TextMap) : Prop where
  timely : l.Timely
  entries : List.Forall₂ l.HoldsText l.catalog.outlines.entries m.entries

theorem holds_fresh (order : Arrangement) : (fresh order).Holds .empty :=
  ⟨timely_fresh order, .nil⟩

/-- A file is told by its number, as its path is by its spelling. -/
theorem HoldsText.fst_eq_iff {l : Ledger} {e : FileId × Outline} {f : FileKey × Text}
    (h : l.HoldsText e f) {p : FileKey} {file : FileId} (hp : l.registry.get? p = some file) :
    e.1 = file ↔ f.1 = p := by
  constructor
  · intro he
    exact Registry.eq_of_get?_eq_some h.1 (he ▸ hp)
  · intro hf
    exact Option.some.inj (h.1.symm.trans (hf ▸ hp))

/-- What is held stays so while paths are registered. -/
theorem forall₂_holdsText_mono {l l' : Ledger} {es : List (FileId × Outline)}
    {fs : List (FileKey × Text)} (h : List.Forall₂ l.HoldsText es fs)
    (hregistry : ∀ p file, l.registry.get? p = some file → l'.registry.get? p = some file) :
    List.Forall₂ l'.HoldsText es fs :=
  h.imp fun _ _ hab => ⟨hregistry _ _ hab.1, hab.2⟩

/-- **Outlines given in order correspond to texts given in order.** -/
theorem forall₂_insertAll {l : Ledger} {os : List (FileId × Outline)}
    {files : List (FileKey × Text)} (h : List.Forall₂ l.HoldsText os files) :
    List.Forall₂ l.HoldsText (Catalog.ofOutlines os).outlines.entries
      (OrderedMap.insertAll .empty files).entries := by
  let Corresponds : Catalog → TextMap → Prop := fun c m =>
    List.Forall₂ l.HoldsText c.outlines.entries m.entries
  refine List.rel_foldl (P := Corresponds) (fun c m hc e f hnew => ?_) .nil h
  change List.Forall₂ _ (c.apply e.1 e.2).outlines.entries _
  rw [Catalog.outlines_apply]
  exact Entries.forall₂_put hnew (fun _ _ hab => hab.fst_eq_iff hnew.1) hc

/-- Files with their numbers correspond to the outlines of their texts. -/
theorem forall₂_zip_scanText {l : Ledger} : ∀ {ids : List FileId} {files : List (FileKey × Text)},
    ids.map some = (files.map Prod.fst).map l.registry.get? →
      List.Forall₂ l.HoldsText
        ((ids.zip files).map fun (file, _, text) => (file, scanText file text)) files
  | [], [], _ => .nil
  | _ :: _, [], h => absurd h (by simp)
  | [], _ :: _, h => absurd h (by simp)
  | _ :: _, _ :: _, h => by
    obtain ⟨hfirst, hrest⟩ := List.cons.inj h
    exact .cons ⟨hfirst.symm, rfl⟩ (forall₂_zip_scanText hrest)

/-- **A rebuild holds just the texts it is given**, whatever the ledger held before. -/
theorem Timely.holds_rebuild {l : Ledger} (h : l.Timely) (files : List (FileKey × Text)) :
    (l.rebuild files).Holds (.insertAll .empty files) := by
  obtain ⟨hregistry, hcatalog⟩ := rebuild_catalog_eq h files
  refine ⟨h.rebuild files, ?_⟩
  have hids : (l.registry.registerAll (files.map Prod.fst)).1.map some =
      (files.map Prod.fst).map (l.rebuild files).registry.get? := by
    rw [hregistry]
    exact Registry.map_some_registerAll (files.map Prod.fst) l.registry
  rw [hcatalog]
  exact forall₂_insertAll (forall₂_zip_scanText hids)

namespace Holds

variable {l : Ledger} {m : TextMap}

/-- **The files are those of the paths**, in the same order. -/
theorem map_files (h : l.Holds m) : l.catalog.files.map some = m.keys.map l.registry.get? := by
  rw [Catalog.files, OrderedMap.keys, OrderedMap.keys, List.map_map, List.map_map,
    ← List.forall₂_eq_eq_eq, List.forall₂_map_left_iff, List.forall₂_map_right_iff]
  exact h.entries.imp fun _ _ hab => hab.1.symm

theorem contains_eq (h : l.Holds m) {p : FileKey} {file : FileId}
    (hp : l.registry.get? p = some file) :
    l.catalog.contains file = m.contains p := by
  have hmem : file ∈ l.catalog.files ↔ p ∈ m.keys := by
    have hsome : file ∈ l.catalog.files ↔ some file ∈ l.catalog.files.map some := by simp
    rw [hsome, h.map_files, List.mem_map]
    constructor
    · rintro ⟨q, hq, hfile⟩
      rwa [Registry.eq_of_get?_eq_some hfile hp] at hq
    · exact fun hmem => ⟨p, hmem, hp⟩
  rw [Catalog.mem_files_iff, OrderedMap.mem_keys_iff] at hmem
  exact Bool.eq_iff_iff.mpr hmem

/-- A path that is there has a number. -/
theorem not_mem_keys (h : l.Holds m) {p : FileKey} (hp : l.registry.get? p = none) :
    p ∉ m.keys := by
  intro hmem
  have hnone : none ∈ m.keys.map l.registry.get? := List.mem_map.mpr ⟨p, hmem, hp⟩
  rw [← h.map_files] at hnone
  exact absurd hnone (by simp)

/-- **A text that is there** makes the outline of its file. -/
theorem outline?_of_get? (h : l.Holds m) {p : FileKey} {text : Text} (hp : m.get? p = some text) :
    ∃ file, l.registry.get? p = some file ∧
      l.catalog.outline? file = some (scanText file text) := by
  have hmem : (p, text) ∈ m.entries := (m.get?_eq_some_iff p text).mp hp
  obtain ⟨⟨file, o⟩, he, hfile, ho⟩ := Entries.exists_of_forall₂ h.entries hmem
  exact ⟨file, hfile, (l.catalog.outlines.get?_eq_some_iff file _).mpr (ho ▸ he)⟩

theorem setText (h : l.Holds m) (p : FileKey) (text : Text) :
    (l.setText p text).2.Holds (m.insert p text) := by
  obtain ⟨-, hregistry, hcatalog⟩ := setText_eq h.timely p text
  refine ⟨h.timely.setText p text, ?_⟩
  have hnew : (l.setText p text).2.HoldsText
      ((l.registry.register p).1, scanText (l.registry.register p).1 text) (p, text) :=
    ⟨by rw [hregistry, Registry.get?_register], rfl⟩
  have hold : List.Forall₂ (l.setText p text).2.HoldsText l.catalog.outlines.entries m.entries :=
    forall₂_holdsText_mono h.entries fun q file hq => by
      rw [hregistry]
      exact Registry.get?_register_of_get? hq p
  rw [hcatalog, Catalog.outlines_apply]
  exact Entries.forall₂_put hnew (fun _ _ hab => hab.fst_eq_iff hnew.1) hold

theorem removePath (h : l.Holds m) (p : FileKey) :
    (l.removePath p).1 = m.contains p ∧ (l.removePath p).2.Holds (m.erase p) := by
  rcases hp : l.registry.get? p with _ | file
  · have habsent := h.not_mem_keys hp
    have herase : m.erase p = m := OrderedMap.ext (List.filter_eq_self.mpr fun e he =>
      decide_eq_true fun hep => habsent (hep ▸ List.mem_map_of_mem he))
    rw [removePath_of_get?_eq_none hp, herase]
    refine ⟨?_, h⟩
    rw [OrderedMap.mem_keys_iff, Bool.not_eq_true] at habsent
    exact habsent.symm
  · obtain ⟨hremoved, hregistry, hcatalog⟩ := removePath_eq h.timely hp
    refine ⟨hremoved.trans (h.contains_eq hp), h.timely.removePath p, ?_⟩
    have hold : List.Forall₂ (l.removePath p).2.HoldsText l.catalog.outlines.entries m.entries :=
      forall₂_holdsText_mono h.entries fun q file' hq => by rwa [hregistry]
    rw [hcatalog, Catalog.outlines_remove]
    refine List.rel_filter (fun e f hef => ?_) hold
    have hsame : e.1 = file ↔ f.1 = p := hef.fst_eq_iff (hregistry ▸ hp)
    simp [hsame]

theorem update (h : l.Holds m) : ∀ u, (l.update u).Holds (m.update u)
  | .setText p text => h.setText p text
  | .removePath p => (h.removePath p).2
  | .rebuild files => h.timely.holds_rebuild files

/-- **Numbers stay as they are** over a direct update. -/
theorem get?_update (h : l.Holds m) {p : FileKey} {file : FileId}
    (hp : l.registry.get? p = some file) :
    ∀ u, (l.update u).registry.get? p = some file
  | .setText q text => by
    rw [Ledger.update, (setText_eq h.timely q text).2.1]
    exact Registry.get?_register_of_get? hp q
  | .removePath q => by
    rw [Ledger.update]
    rcases hq : l.registry.get? q with _ | file'
    · rwa [removePath_of_get?_eq_none hq]
    · rwa [(removePath_eq h.timely hq).2.1]
  | .rebuild files => by
    rw [Ledger.update, (rebuild_catalog_eq h.timely files).1]
    exact Registry.get?_registerAll_of_get? _ hp

end Holds

theorem holds_replay (order : Arrangement) (us : List DirectUpdate) :
    (replay order us).Holds (.replay us) := by
  induction us using List.reverseRecOn with
  | nil => exact holds_fresh order
  | append_singleton us u ih =>
    rw [replay, TextMap.replay, List.foldl_concat, List.foldl_concat]
    exact ih.update u

/-- **Over direct updates numbers stay as they are.** -/
theorem get?_replay_append {order : Arrangement} (us : List DirectUpdate) {p : FileKey}
    {file : FileId} (hp : (replay order us).registry.get? p = some file)
    (us' : List DirectUpdate) :
    (replay order (us ++ us')).registry.get? p = some file := by
  induction us' using List.reverseRecOn with
  | nil => rwa [List.append_nil]
  | append_singleton us' u ih =>
    rw [← List.append_assoc, replay, List.foldl_concat]
    exact (holds_replay order (us ++ us')).get?_update ih u

/-- **Direct updates treat a ledger as an ordered map from paths to texts**, whatever they are: its
files are those of the paths in the map, in the same order; the outline of each is that of the text
there; every text that is set takes effect; taking out a path tells whether it was there; and the
number of a path stays the same for good. -/
theorem direct_updates_refine_texts (order : Arrangement) (us : List DirectUpdate) :
    (replay order us).catalog.files.map some =
      (TextMap.replay us).keys.map (replay order us).registry.get? ∧
    (∀ p text, (TextMap.replay us).get? p = some text → ∃ file,
      (replay order us).registry.get? p = some file ∧
        (replay order us).catalog.outline? file = some (scanText file text)) ∧
    (∀ p text,
      ((replay order us).setText p text).2.registry.get? p =
        some ((replay order us).setText p text).1 ∧
      ((replay order us).setText p text).2.catalog.outline? ((replay order us).setText p text).1 =
        some (scanText ((replay order us).setText p text).1 text)) ∧
    (∀ p, ((replay order us).removePath p).1 = (TextMap.replay us).contains p) ∧
    (∀ p file, (replay order us).registry.get? p = some file →
      ∀ us', (replay order (us ++ us')).registry.get? p = some file) := by
  have h := holds_replay order us
  refine ⟨h.map_files, fun p text => h.outline?_of_get?, ?_, fun p => (h.removePath p).1,
    fun p file hp => get?_replay_append us hp⟩
  intro p text
  obtain ⟨hfile, hregistry, hcatalog⟩ := setText_eq h.timely p text
  refine ⟨by rw [hregistry, hfile, Registry.get?_register], ?_⟩
  rw [hcatalog, hfile, Catalog.outline?_apply, if_pos rfl]

/-- A path that a rebuild drops keeps its number, and of two texts listed for a path the last one
stands in the place of the first. -/
theorem direct_updates_refine_texts_relisted :
    let a : FileKey := ['a']
    let b : FileKey := ['b']
    let c : FileKey := ['c']
    let us : List DirectUpdate := [.setText a ['x'], .setText b ['y'],
      .rebuild [(c, []), (b, ['u']), (c, ['v'])]]
    (replay .asCommitted us).catalog.files = [⟨2⟩, ⟨1⟩] ∧
      (replay .asCommitted us).catalog.outline? ⟨2⟩ = some (scanText ⟨2⟩ ['v']) ∧
      ((replay .asCommitted us).removePath a).1 = false ∧
      (replay .asCommitted (us ++ [.removePath b, .setText a []])).registry.get? a = some ⟨0⟩ := by
  intro a b c us
  obtain ⟨hfiles, htexts, -, hremove, hnumbers⟩ := direct_updates_refine_texts .asCommitted us
  have hnumber : (replay .asCommitted us).registry.get? a = some ⟨0⟩ ∧
      (replay .asCommitted us).registry.get? b = some ⟨1⟩ ∧
        (replay .asCommitted us).registry.get? c = some ⟨2⟩ := by decide
  have hkeys : (TextMap.replay us).keys = [c, b] := by decide
  obtain ⟨file, hfile, houtline⟩ := htexts c ['v'] (by decide)
  obtain rfl : ⟨2⟩ = file := Option.some.inj (hnumber.2.2.symm.trans hfile)
  refine ⟨?_, houtline, (hremove a).trans (by decide), hnumbers a ⟨0⟩ hnumber.1 _⟩
  rw [hkeys, List.map_cons, List.map_singleton, hnumber.2.1, hnumber.2.2] at hfiles
  exact List.map_injective_iff.mpr (fun _ _ => Option.some.inj)
    (hfiles : _ = [(⟨2⟩ : FileId), ⟨1⟩].map some)

end Ledger

end TclAtlas
