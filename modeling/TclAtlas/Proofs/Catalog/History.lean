import TclAtlas.Proofs.Catalog.Coherence
import Mathlib.Data.List.Induction

/-!
# Proofs/Catalog/History — a catalog keeps no trace of its history

The **record** of a history is a plain list of files with their outlines.  Giving an outline to a
file that is listed replaces its outline in place; any other file comes last; taking a file out
keeps the order of the rest; starting anew begins with the empty list.

A catalog lists the record of its history (`entries_replay`).  Its tables are those its outlines
determine, so two coherent catalogs with the same outlines agree (`Coherent.same_of_outlines_eq`),
and a catalog with any history agrees with the one started anew from its record
(`replay_agrees_with_record`).
-/

namespace TclAtlas

/-! ## Agreement of maps and buckets -/

namespace OrderedMap

variable {κ : Type u} {ν : Type v} [DecidableEq κ]

theorem agrees_iff {same : ν → ν → Bool} {m n : OrderedMap κ ν} :
    m.agrees same n = true ↔ m.keys.length = n.keys.length ∧
      ∀ k v, m.get? k = some v → ∃ w, n.get? k = some w ∧ same v w = true := by
  simp only [agrees, keys, size, List.length_map, Bool.and_eq_true, beq_iff_eq, List.all_eq_true,
    Prod.forall, ← get?_eq_some_iff]
  refine and_congr_right fun _ => forall₃_congr fun k v _ => ?_
  rcases n.get? k with _ | w <;> simp

/-- **A map agrees with itself** when its values do. -/
theorem agrees_refl {same : ν → ν → Bool} (h : ∀ v, same v v = true) (m : OrderedMap κ ν) :
    m.agrees same m = true :=
  agrees_iff.mpr ⟨rfl, fun _ v hv => ⟨v, hv, h v⟩⟩

end OrderedMap

theorem Distinct.sameMembers_refl {α : Type u} [DecidableEq α] (l : List α) :
    sameMembers l l = true :=
  sameMembers_iff.mpr fun _ => Iff.rfl

/-- **Tidy buckets agree** when they hold the same members under every key. -/
theorem Buckets.Tidy.agrees {κ : Type u} {α : Type v} [DecidableEq κ] [DecidableEq α]
    {m n : Buckets κ α} (hm : m.Tidy) (hn : n.Tidy)
    (h : ∀ k a, a ∈ m.bucket k ↔ a ∈ n.bucket k) :
    OrderedMap.agrees Distinct.sameMembers m n = true := by
  have hkeys : ∀ k, k ∈ m.keys ↔ k ∈ n.keys := by
    intro k
    rw [hm.mem_keys_iff_exists, hn.mem_keys_iff_exists]
    exact exists_congr (h k)
  refine OrderedMap.agrees_iff.mpr ⟨Catalog.length_eq_of_nodup m.nodup n.nodup hkeys, ?_⟩
  intro k as has
  have hk : k ∈ n.keys := (hkeys k).mp ((m.mem_keys_iff k).mpr (by simp [has]))
  obtain ⟨bs, hbs⟩ := Option.isSome_iff_exists.mp ((n.mem_keys_iff k).mp hk)
  refine ⟨bs, hbs, Distinct.sameMembers_iff.mpr fun a => ?_⟩
  simpa [bucket, has, hbs] using h k a

namespace Outline

theorem same_refl (o : Outline) : o.same o = true := by
  have hshape : ∀ d : DictShape, sameShape d d = true := by
    intro d
    simp [sameShape, Distinct.sameMembers_refl]
  simp [same, OrderedMap.agrees_refl hshape]

end Outline

/-! ## Entries that are replaced or appended -/

namespace Entries

variable {κ : Type u} {ν : Type v} [DecidableEq κ]

/-- Giving a value to a key that is there replaces the value of its one entry. -/
theorem put_of_mem {k : κ} (v : ν) : ∀ {es : List (κ × ν)}, (es.map Prod.fst).Nodup →
    k ∈ es.map Prod.fst → put k v es = es.map fun e => if e.1 = k then (k, v) else e
  | [], _, h => absurd h (by simp)
  | e :: es, hnodup, h => by
    obtain ⟨he, hes⟩ := List.nodup_cons.mp hnodup
    rw [put, List.map_cons]
    by_cases hk : e.1 = k
    · have hrest : ∀ e' ∈ es, (if e'.1 = k then (k, v) else e') = e' := by
        intro e' he'
        refine if_neg fun hk' => he ?_
        rw [hk, ← hk']
        exact List.mem_map_of_mem he'
      rw [if_pos hk, if_pos hk, List.map_congr_left hrest, List.map_id']
    · have hmem : k ∈ es.map Prod.fst := (List.mem_cons.mp h).resolve_left (Ne.symm hk)
      rw [if_neg hk, if_neg hk, put_of_mem v hes hmem]

end Entries

namespace OrderedMap

variable {κ : Type u} {ν : Type v} [DecidableEq κ]

/-- **Giving a key the value that it has** changes nothing. -/
theorem insert_of_get? {m : OrderedMap κ ν} {k : κ} {v : ν} (h : m.get? k = some v) :
    m.insert k v = m := by
  have hmem : (k, v) ∈ m.entries := (m.get?_eq_some_iff k v).mp h
  refine ext ((Entries.put_of_mem v m.nodup (List.mem_map.mpr ⟨_, hmem, rfl⟩)).trans ?_)
  have hsame : ∀ e ∈ m.entries, (if e.1 = k then (k, v) else e) = e := by
    intro e he
    split
    · next hk =>
      have hv : m.get? k = some e.2 := (m.get?_eq_some_iff k e.2).mpr (hk ▸ he)
      exact Prod.ext hk.symm (Option.some.inj (h.symm.trans hv))
    · rfl
  rw [List.map_congr_left hsame, List.map_id']

/-- **Taking out a key that was just added** changes nothing. -/
theorem erase_insert_of_get?_eq_none {m : OrderedMap κ ν} {k : κ} (h : m.get? k = none) (v : ν) :
    (m.insert k v).erase k = m := by
  have hk : k ∉ m.keys := by simp [mem_keys_iff, h]
  refine ext ?_
  change (Entries.put k v m.entries).filter (·.1 ≠ k) = m.entries
  rw [Entries.put_of_not_mem v hk, List.filter_append]
  have hrest : m.entries.filter (·.1 ≠ k) = m.entries := by
    refine List.filter_eq_self.mpr fun e he => ?_
    exact decide_eq_true fun hek => hk (hek ▸ List.mem_map_of_mem he)
  rw [hrest]
  simp

end OrderedMap

/-! ## The record of a history -/

/-- **A record**: files with their outlines, in order. -/
abbrev Record := List (FileId × Outline)

namespace Record

/-- The record with an outline for a file: in the place of the one it has, or else at the end. -/
def set (r : Record) (file : FileId) (o : Outline) : Record :=
  if file ∈ r.map Prod.fst then r.map fun e => if e.1 = file then (file, o) else e
  else r ++ [(file, o)]

/-- The record with several outlines set in order. -/
def setAll (r : Record) (os : List (FileId × Outline)) : Record :=
  os.foldl (fun r e => r.set e.1 e.2) r

/-- The record after an update. -/
def update (r : Record) : CatalogUpdate → Record
  | .applyText file text => r.set file (scanText file text)
  | .apply file o => r.set file o
  | .remove file => r.filter fun e => e.1 ≠ file
  | .ofTexts ts => setAll [] (ts.map fun (file, text) => (file, scanText file text))
  | .ofOutlines os => setAll [] os
  | .clear => []

/-- **The record of a history of updates**, from the empty one on. -/
def ofHistory (us : List CatalogUpdate) : Record := us.foldl update []

/-- **Setting the outlines of a record** one after the other gives the record back. -/
theorem setAll_eq_append : ∀ (os r : Record), ((r ++ os).map Prod.fst).Nodup →
    setAll r os = r ++ os
  | [], r, _ => (List.append_nil r).symm
  | e :: os, r, h => by
    have hsplit : r ++ e :: os = (r ++ [e]) ++ os := by simp
    have hnew : e.1 ∉ r.map Prod.fst := by
      rw [List.map_append, List.map_cons] at h
      exact fun hmem => (List.nodup_append.mp h).2.2 _ hmem _ List.mem_cons_self rfl
    rw [setAll, List.foldl_cons, set, if_neg hnew, hsplit]
    exact setAll_eq_append os (r ++ [e]) (hsplit ▸ h)

end Record

namespace Catalog

/-! ## A catalog lists its record -/

theorem entries_apply (c : Catalog) (file : FileId) (o : Outline) :
    (c.apply file o).outlines.entries = Record.set c.outlines.entries file o := by
  rw [outlines_apply, Record.set]
  split
  · next h => exact Entries.put_of_mem o c.outlines.nodup h
  · next h => exact Entries.put_of_not_mem o h

theorem entries_foldl_apply (os : List (FileId × Outline)) (c : Catalog) :
    (os.foldl (fun c e => c.apply e.1 e.2) c).outlines.entries =
      Record.setAll c.outlines.entries os := by
  induction os generalizing c with
  | nil => rfl
  | cons e os ih =>
    rw [List.foldl_cons, ih, entries_apply, Record.setAll, Record.setAll, List.foldl_cons]

theorem entries_ofOutlines (os : List (FileId × Outline)) :
    (ofOutlines os).outlines.entries = Record.setAll [] os :=
  entries_foldl_apply os empty

theorem entries_update (c : Catalog) : ∀ u : CatalogUpdate,
    (c.update u).outlines.entries = Record.update c.outlines.entries u
  | .applyText file text => c.entries_apply file (scanText file text)
  | .apply file o => c.entries_apply file o
  | .remove file => congrArg OrderedMap.entries (c.outlines_remove file)
  | .ofTexts _ => entries_ofOutlines _
  | .ofOutlines os => entries_ofOutlines os
  | .clear => rfl

/-- **A catalog lists the record of its history**, in the same order. -/
theorem entries_replay (us : List CatalogUpdate) :
    (replay us).outlines.entries = Record.ofHistory us := by
  induction us using List.reverseRecOn with
  | nil => rfl
  | append_singleton us u ih =>
    rw [replay, List.foldl_concat, ← replay, entries_update, ih, Record.ofHistory,
      Record.ofHistory, List.foldl_concat]

/-- **The catalog started anew from the record** has the same outlines in the same order. -/
theorem outlines_ofOutlines_ofHistory (us : List CatalogUpdate) :
    (ofOutlines (Record.ofHistory us)).outlines = (replay us).outlines := by
  refine OrderedMap.ext ?_
  rw [entries_ofOutlines, ← entries_replay]
  exact Record.setAll_eq_append _ [] (replay us).outlines.nodup

/-! ## Outlines determine a catalog -/

/-- **Coherent catalogs with the same outlines agree.** -/
theorem Coherent.same_of_outlines_eq {c d : Catalog} (hc : c.Coherent) (hd : d.Coherent)
    (h : c.outlines = d.outlines) : c.same d = true := by
  have houtline : ∀ file, c.outline? file = d.outline? file := by
    intro file
    rw [outline?, outline?, h]
  have htable : ∀ k s, s ∈ c.table.slots k ↔ s ∈ d.table.slots k := by
    intro k s
    rw [hc.mem_slots, hd.mem_slots, houtline]
  have hdeclaring : ∀ ns file, file ∈ c.declaring.bucket ns ↔ file ∈ d.declaring.bucket ns := by
    intro ns file
    rw [hc.mem_declaring, hd.mem_declaring, houtline]
  rw [same, h, OrderedMap.agrees_refl Outline.same_refl, hc.tidy_table.agrees hd.tidy_table htable,
    hc.tidy_declaring.agrees hd.tidy_declaring hdeclaring]
  rfl

/-- **A catalog keeps no trace of its history**: it lists the record of the history in order, and
agrees with the catalog started anew from the record.  Giving a file the outline that it has, or
adding an absent file and taking it out again, leaves the listed files and agrees with what was
there before. -/
theorem replay_agrees_with_record (us : List CatalogUpdate) :
    (replay us).outlines.entries = Record.ofHistory us ∧
    (replay us).files = (ofOutlines (Record.ofHistory us)).files ∧
    (replay us).same (ofOutlines (Record.ofHistory us)) = true ∧
    (∀ file o, (replay us).outline? file = some o →
      ((replay us).apply file o).files = (replay us).files ∧
      ((replay us).apply file o).same (replay us) = true) ∧
    (∀ file o, (replay us).outline? file = none →
      (((replay us).apply file o).remove file).files = (replay us).files ∧
      (((replay us).apply file o).remove file).same (replay us) = true) := by
  have hc := coherent_replay us
  have hanew := outlines_ofOutlines_ofHistory us
  refine ⟨entries_replay us, congrArg OrderedMap.keys hanew.symm,
    hc.same_of_outlines_eq (coherent_ofOutlines _) hanew.symm, ?_, ?_⟩
  · intro file o ho
    have houtlines : ((replay us).apply file o).outlines = (replay us).outlines :=
      (outlines_apply ..).trans (OrderedMap.insert_of_get? ho)
    exact ⟨congrArg OrderedMap.keys houtlines, (hc.apply file o).same_of_outlines_eq hc houtlines⟩
  · intro file o ho
    have houtlines : (((replay us).apply file o).remove file).outlines = (replay us).outlines := by
      rw [outlines_remove, outlines_apply]
      exact OrderedMap.erase_insert_of_get?_eq_none ho o
    exact ⟨congrArg OrderedMap.keys houtlines,
      ((hc.apply file o).remove file).same_of_outlines_eq hc houtlines⟩

/-- A file taken out and put back comes last, and putting back what is there leaves it in place. -/
theorem replay_agrees_with_record_readded :
    let first : Outline := { Outline.empty with namespaces := [['a']] }
    let us : List CatalogUpdate :=
      [.apply ⟨1⟩ first, .apply ⟨2⟩ .empty, .remove ⟨1⟩, .apply ⟨1⟩ first]
    (replay us).outlines.entries = [(⟨2⟩, .empty), (⟨1⟩, first)] ∧
      ((replay us).apply ⟨2⟩ .empty).files = (replay us).files ∧
      (((replay us).apply ⟨3⟩ first).remove ⟨3⟩).same (replay us) = true := by
  intro first us
  obtain ⟨hentries, -, -, hagain, hadded⟩ := replay_agrees_with_record us
  exact ⟨hentries, (hagain ⟨2⟩ .empty rfl).1, (hadded ⟨3⟩ first rfl).2⟩

end Catalog

end TclAtlas
