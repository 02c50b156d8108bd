import TclAtlas.Proofs.Ledger.Effects

/-!
# Proofs/Ledger/Run — what may happen to a ledger

A ledger is called from outside with the tickets it has issued.  A **desk** keeps these tickets
beside the ledger, so that a run of calls can be told apart from calls with made-up tickets.

Two facts hold whatever the order of the calls.  Stamps only grow: the stamp of the last commit of a
file never falls back (`Desk.Run.advances`), so a ticket once stale stays stale.  And no stamp is
issued before its time: all stamps of commits and tickets lie below the next one
(`Desk.Run.sound`).
-/

namespace TclAtlas

/-! ## Stamps only grow -/

namespace Ledger

/-- **No stamp falls back** from the one ledger to the other. -/
def Advances (l l' : Ledger) : Prop :=
  ∀ file stamp, l.stamp? file = some stamp → ∃ stamp', l'.stamp? file = some stamp' ∧ stamp ≤ stamp'

theorem Advances.refl (l : Ledger) : l.Advances l := fun _ stamp h => ⟨stamp, h, Nat.le_refl stamp⟩

theorem Advances.trans {l l' l'' : Ledger} (h : l.Advances l') (h' : l'.Advances l'') :
    l.Advances l'' := by
  intro file stamp hs
  obtain ⟨stamp', hs', hle⟩ := h file stamp hs
  obtain ⟨stamp'', hs'', hle'⟩ := h' file stamp' hs'
  exact ⟨stamp'', hs'', hle.trans hle'⟩

/-- **A ticket once stale stays stale.** -/
theorem Advances.isStale {l l' : Ledger} (h : l.Advances l') {t : UpdateTicket}
    (ht : l.isStale t = true) : l'.isStale t = true := by
  obtain ⟨stamp, hs, hlt⟩ := (isStale_iff l t).mp ht
  obtain ⟨stamp', hs', hle⟩ := h t.file stamp hs
  exact (isStale_iff l' t).mpr ⟨stamp', hs', hlt.trans_le hle⟩

theorem advances_commit (l : Ledger) (t : UpdateTicket) (o : Option Outline) :
    l.Advances (l.commit t o).2 := by
  intro file stamp hs
  rw [stamp?_commit]
  split
  · next h =>
    obtain ⟨rfl, hfresh⟩ := h
    refine ⟨t.stamp, rfl, Nat.le_of_not_lt fun hlt => ?_⟩
    have hstale : l.isStale t = true := (isStale_iff l t).mpr ⟨stamp, hs, hlt⟩
    exact absurd (hfresh.symm.trans hstale) (by simp)
  · exact ⟨stamp, hs, Nat.le_refl stamp⟩

theorem advances_commitRebuild (l : Ledger) (t : RebuildTicket) (os : List (FileId × Outline)) :
    l.Advances (l.commitRebuild t os).2 := by
  intro file stamp hs
  by_cases h : t.generation = l.generation
  · rw [stamp?_commitRebuild h]
    split
    · next hfile =>
      refine ⟨t.started, rfl, Nat.le_of_not_lt fun hlt => hfile.1 ?_⟩
      exact (mem_newerThan_iff l t file).mpr ⟨stamp, hs, hlt⟩
    · exact ⟨stamp, hs, Nat.le_refl stamp⟩
  · rw [commitRebuild_of_ne h]
    exact ⟨stamp, hs, Nat.le_refl stamp⟩

/-! ## Direct updates are made of tickets -/

/-- Setting a text registers the path, issues a ticket and commits it. -/
theorem setText_snd (l : Ledger) (p : FileKey) (text : Text) :
    (l.setText p text).2 =
      (((l.register p).2.issue (l.register p).1).2.commit
        ((l.register p).2.issue (l.register p).1).1
          (some (scanText (l.register p).1 text))).2 := rfl

/-- Taking out a path issues a ticket and commits a removal, if the path has a number. -/
theorem removePath_snd (l : Ledger) (p : FileKey) :
    (l.removePath p).2 = l ∨
      ∃ file, (l.removePath p).2 = ((l.issue file).2.commit (l.issue file).1 none).2 := by
  rw [removePath]
  split
  · exact Or.inl rfl
  · next file _ => exact Or.inr ⟨file, rfl⟩

/-- The outlines that a rebuild commits for the given files: those of their texts, under the numbers
of their paths. -/
def rebuildOutlines (l : Ledger) (files : List (FileKey × Text)) : List (FileId × Outline) :=
  ((l.registry.registerAll (files.map Prod.fst)).1.zip files).map fun (file, _, text) =>
    (file, scanText file text)

/-- Concluding a rebuild registers paths and commits it. -/
theorem concludeRebuild_snd (l : Ledger) (t : RebuildTicket) (files : List (FileKey × Text)) :
    (l.concludeRebuild t files).2 =
      ({ l with registry := (l.registry.registerAll (files.map Prod.fst)).2 }.commitRebuild t
        (l.rebuildOutlines files)).2 := rfl

/-- **Concluding a rebuild answers its files**, unless another one has begun since. -/
theorem concludeRebuild_fst (l : Ledger) (t : RebuildTicket) (files : List (FileKey × Text)) :
    (l.concludeRebuild t files).1 = if t.generation = l.generation then
      some (l.registry.registerAll (files.map Prod.fst)).1 else none := by
  have h : (l.concludeRebuild t files).1 = if (Ledger.commitRebuild { l with
      registry := (l.registry.registerAll (files.map Prod.fst)).2 } t (l.rebuildOutlines files)).1
        then some (l.registry.registerAll (files.map Prod.fst)).1 else none := rfl
  rw [h, commitRebuild_fst]
  exact if_congr decide_eq_true_iff rfl rfl

/-- A rebuild that is refused changes no outline. -/
theorem outline?_concludeRebuild_of_none {l : Ledger} {t : RebuildTicket}
    {files : List (FileKey × Text)} (h : (l.concludeRebuild t files).1 = none) (file : FileId) :
    (l.concludeRebuild t files).2.catalog.outline? file = l.catalog.outline? file := by
  let l' : Ledger := { l with registry := (l.registry.registerAll (files.map Prod.fst)).2 }
  have hvoid : t.generation ≠ l'.generation := by
    intro hg
    rw [concludeRebuild_fst, if_pos hg] at h
    exact Option.some_ne_none _ h
  rw [concludeRebuild_snd, commitRebuild_of_ne hvoid]

theorem generation_concludeRebuild (l : Ledger) (t : RebuildTicket)
    (files : List (FileKey × Text)) : (l.concludeRebuild t files).2.generation = l.generation := by
  rw [concludeRebuild_snd, commitRebuild]
  split <;> rfl

/-- A direct rebuild begins one, registers paths and commits it. -/
theorem rebuild_eq (l : Ledger) (files : List (FileKey × Text)) :
    ∃ r os, l.rebuild files =
      ({ l.beginRebuild.2 with registry := r }.commitRebuild l.beginRebuild.1 os).2 :=
  ⟨_, _, concludeRebuild_snd l.beginRebuild.2 l.beginRebuild.1 files⟩

theorem advances_setText (l : Ledger) (p : FileKey) (text : Text) :
    l.Advances (l.setText p text).2 := by
  rw [setText_snd]
  exact advances_commit ((l.register p).2.issue (l.register p).1).2 _ _

theorem advances_removePath (l : Ledger) (p : FileKey) : l.Advances (l.removePath p).2 := by
  rcases l.removePath_snd p with h | ⟨file, h⟩ <;> rw [h]
  · exact .refl l
  · exact advances_commit (l.issue file).2 _ none

theorem advances_rebuild (l : Ledger) (files : List (FileKey × Text)) :
    l.Advances (l.rebuild files) := by
  obtain ⟨r, os, h⟩ := l.rebuild_eq files
  rw [h]
  exact advances_commitRebuild { l.beginRebuild.2 with registry := r } _ os

/-! ## No stamp before its time -/

/-- **Every commit has a stamp below the next one.** -/
def Timely (l : Ledger) : Prop := ∀ file stamp, l.stamp? file = some stamp → stamp < l.nextStamp

theorem timely_fresh (order : Arrangement) : (fresh order).Timely := by
  intro file stamp h
  exact absurd h (by simp [stamp?, fresh])

theorem nextStamp_commitRebuild (l : Ledger) (t : RebuildTicket) (os : List (FileId × Outline)) :
    (l.commitRebuild t os).2.nextStamp = l.nextStamp := by
  rw [commitRebuild]
  split <;> rfl

theorem Timely.issue {l : Ledger} (h : l.Timely) (file : FileId) : (l.issue file).2.Timely :=
  fun f stamp hs => Nat.lt_succ_of_lt (h f stamp hs)

/-- **A new ticket is not stale.** -/
theorem Timely.isStale_issue {l : Ledger} (h : l.Timely) (file : FileId) :
    (l.issue file).2.isStale (l.issue file).1 = false := by
  refine Bool.eq_false_iff.mpr fun hstale => ?_
  obtain ⟨stamp, hs, hlt⟩ := (isStale_iff _ _).mp hstale
  exact absurd (h file stamp hs) (Nat.not_lt_of_lt hlt)

/-- **No file is newer than a rebuild that has just begun.** -/
theorem Timely.newerThan_beginRebuild {l : Ledger} (h : l.Timely) (r : Registry) :
    { l.beginRebuild.2 with registry := r }.newerThan l.beginRebuild.1 = [] := by
  refine List.eq_nil_iff_forall_not_mem.mpr fun file hfile => ?_
  obtain ⟨stamp, hs, hlt⟩ := (mem_newerThan_iff _ _ file).mp hfile
  exact absurd (h file stamp hs) (Nat.not_lt_of_lt hlt)

theorem Timely.commit {l : Ledger} (h : l.Timely) {t : UpdateTicket} (ht : t.stamp < l.nextStamp)
    (o : Option Outline) : (l.commit t o).2.Timely := by
  intro file stamp hs
  rw [nextStamp_commit]
  rw [stamp?_commit] at hs
  split at hs
  · obtain rfl : t.stamp = stamp := Option.some.inj hs
    exact ht
  · exact h file stamp hs

theorem Timely.beginRebuild {l : Ledger} (h : l.Timely) : l.beginRebuild.2.Timely :=
  fun f stamp hs => Nat.lt_succ_of_lt (h f stamp hs)

theorem Timely.commitRebuild {l : Ledger} (h : l.Timely) {t : RebuildTicket}
    (ht : t.started < l.nextStamp) (os : List (FileId × Outline)) :
    (l.commitRebuild t os).2.Timely := by
  intro file stamp hs
  rw [nextStamp_commitRebuild]
  by_cases hg : t.generation = l.generation
  · rw [stamp?_commitRebuild hg] at hs
    split at hs
    · obtain rfl : t.started = stamp := Option.some.inj hs
      exact ht
    · exact h file stamp hs
  · rw [commitRebuild_of_ne hg] at hs
    exact h file stamp hs

theorem Timely.register {l : Ledger} (h : l.Timely) (p : FileKey) : (l.register p).2.Timely := h

theorem Timely.setText {l : Ledger} (h : l.Timely) (p : FileKey) (text : Text) :
    (l.setText p text).2.Timely := by
  rw [setText_snd]
  exact ((h.register p).issue _).commit (Nat.lt_succ_self l.nextStamp) _

theorem Timely.removePath {l : Ledger} (h : l.Timely) (p : FileKey) :
    (l.removePath p).2.Timely := by
  rcases l.removePath_snd p with hp | ⟨file, hp⟩ <;> rw [hp]
  · exact h
  · exact (h.issue file).commit (Nat.lt_succ_self l.nextStamp) none

theorem Timely.rebuild {l : Ledger} (h : l.Timely) (files : List (FileKey × Text)) :
    (l.rebuild files).Timely := by
  obtain ⟨r, os, hr⟩ := l.rebuild_eq files
  have hbegun : Timely { l.beginRebuild.2 with registry := r } := h.beginRebuild
  rw [hr]
  exact hbegun.commitRebuild (Nat.lt_succ_self l.nextStamp) os

theorem nextStamp_setText (l : Ledger) (p : FileKey) (text : Text) :
    (l.setText p text).2.nextStamp = l.nextStamp + 1 := by
  rw [setText_snd, nextStamp_commit]
  rfl

theorem le_nextStamp_removePath (l : Ledger) (p : FileKey) :
    l.nextStamp ≤ (l.removePath p).2.nextStamp := by
  rcases l.removePath_snd p with h | ⟨file, h⟩
  · rw [h]
  · rw [h, nextStamp_commit]
    exact Nat.le_succ l.nextStamp

theorem nextStamp_rebuild (l : Ledger) (files : List (FileKey × Text)) :
    (l.rebuild files).nextStamp = l.nextStamp + 1 := by
  obtain ⟨r, os, h⟩ := l.rebuild_eq files
  rw [h, nextStamp_commitRebuild]
  rfl

end Ledger

/-! ## Desks -/

/-- **A call of a ledger** from outside. -/
inductive LedgerCall
  | register (p : FileKey)
  | issue (file : FileId)
  | commit (t : UpdateTicket) (o : Option Outline)
  | beginRebuild
  | commitRebuild (t : RebuildTicket) (os : List (FileId × Outline))
  | setText (p : FileKey) (text : Text)
  | removePath (p : FileKey)
  | rebuild (files : List (FileKey × Text))

/-- **A ledger with the tickets that it has issued** to the outside. -/
structure Desk where
  ledger : Ledger
  updates : List UpdateTicket
  rebuilds : List RebuildTicket

namespace Desk

/-- A fresh ledger that has issued no ticket. -/
def fresh (order : Arrangement) : Desk := ⟨.fresh order, [], []⟩

/-- Whether the tickets of a call were issued. -/
def Allows (d : Desk) : LedgerCall → Prop
  | .commit t _ => t ∈ d.updates
  | .commitRebuild t _ => t ∈ d.rebuilds
  | _ => True

/-- **The desk after a call.** -/
def call (d : Desk) : LedgerCall → Desk
  | .register p => { d with ledger := (d.ledger.register p).2 }
  | .issue file =>
    let (t, l) := d.ledger.issue file
    { d with ledger := l, updates := t :: d.updates }
  | .commit t o => { d with ledger := (d.ledger.commit t o).2 }
  | .beginRebuild =>
    let (t, l) := d.ledger.beginRebuild
    { d with ledger := l, rebuilds := t :: d.rebuilds }
  | .commitRebuild t os => { d with ledger := (d.ledger.commitRebuild t os).2 }
  | .setText p text => { d with ledger := (d.ledger.setText p text).2 }
  | .removePath p => { d with ledger := (d.ledger.removePath p).2 }
  | .rebuild files => { d with ledger := d.ledger.rebuild files }

/-- **A run of calls**, each with tickets issued before it. -/
inductive Run : Desk → List LedgerCall → Desk → Prop
  | nil (d : Desk) : Run d [] d
  | cons {d d' : Desk} {a : LedgerCall} {as : List LedgerCall} :
    d.Allows a → Run (d.call a) as d' → Run d (a :: as) d'

theorem Run.append {d d' d'' : Desk} {as bs : List LedgerCall} (h : d.Run as d')
    (h' : d'.Run bs d'') : d.Run (as ++ bs) d'' := by
  induction h with
  | nil => exact h'
  | cons ha _ ih => exact .cons ha (ih h')

theorem Run.single {d : Desk} {a : LedgerCall} (h : d.Allows a) : d.Run [a] (d.call a) :=
  .cons h (.nil _)

theorem advances_call (d : Desk) : ∀ a, d.ledger.Advances (d.call a).ledger
  | .register _ | .issue _ | .beginRebuild => .refl d.ledger
  | .commit t o => d.ledger.advances_commit t o
  | .commitRebuild t os => d.ledger.advances_commitRebuild t os
  | .setText p text => d.ledger.advances_setText p text
  | .removePath p => d.ledger.advances_removePath p
  | .rebuild files => d.ledger.advances_rebuild files

/-- **Over a run no stamp falls back.** -/
theorem Run.advances {d d' : Desk} {as : List LedgerCall} (h : d.Run as d') :
    d.ledger.Advances d'.ledger := by
  induction h with
  | nil d => exact .refl d.ledger
  | cons _ _ ih => exact (advances_call _ _).trans ih

/-! ## Sound desks -/

/-- **All stamps lie below the next one**, of commits and of tickets. -/
structure Sound (d : Desk) : Prop where
  timely : d.ledger.Timely
  update_lt : ∀ t ∈ d.updates, t.stamp < d.ledger.nextStamp
  rebuild_lt : ∀ t ∈ d.rebuilds, t.started < d.ledger.nextStamp

theorem sound_fresh (order : Arrangement) : (fresh order).Sound :=
  ⟨Ledger.timely_fresh order, by simp [fresh], by simp [fresh]⟩

/-- The same tickets over a ledger with a later clock. -/
theorem Sound.advance {d : Desk} (h : d.Sound) {l : Ledger} (hl : l.Timely)
    (hle : d.ledger.nextStamp ≤ l.nextStamp) : Sound { d with ledger := l } :=
  ⟨hl, fun t ht => (h.update_lt t ht).trans_le hle, fun t ht => (h.rebuild_lt t ht).trans_le hle⟩

theorem Sound.issue {d : Desk} (h : d.Sound) (file : FileId) : (d.call (.issue file)).Sound where
  timely := h.timely.issue file
  update_lt t ht := by
    rcases List.mem_cons.mp ht with rfl | ht
    · exact Nat.lt_succ_self d.ledger.nextStamp
    · exact Nat.lt_succ_of_lt (h.update_lt t ht)
  rebuild_lt t ht := Nat.lt_succ_of_lt (h.rebuild_lt t ht)

theorem Sound.beginRebuild {d : Desk} (h : d.Sound) : (d.call .beginRebuild).Sound where
  timely := h.timely.beginRebuild
  update_lt t ht := Nat.lt_succ_of_lt (h.update_lt t ht)
  rebuild_lt t ht := by
    rcases List.mem_cons.mp ht with rfl | ht
    · exact Nat.lt_succ_self d.ledger.nextStamp
    · exact Nat.lt_succ_of_lt (h.rebuild_lt t ht)

theorem Sound.call {d : Desk} (h : d.Sound) : ∀ a, d.Allows a → (d.call a).Sound
  | .register _, _ => h.advance h.timely (Nat.le_refl _)
  | .issue file, _ => h.issue file
  | .beginRebuild, _ => h.beginRebuild
  | .commit t o, ht =>
    h.advance (h.timely.commit (h.update_lt t ht) o) (Ledger.nextStamp_commit ..).ge
  | .commitRebuild t os, ht =>
    h.advance (h.timely.commitRebuild (h.rebuild_lt t ht) os) (Ledger.nextStamp_commitRebuild ..).ge
  | .setText p text, _ =>
    h.advance (h.timely.setText p text)
      ((Nat.le_succ _).trans (d.ledger.nextStamp_setText p text).ge)
  | .removePath p, _ => h.advance (h.timely.removePath p) (d.ledger.le_nextStamp_removePath p)
  | .rebuild files, _ =>
    h.advance (h.timely.rebuild files) ((Nat.le_succ _).trans (d.ledger.nextStamp_rebuild files).ge)

/-- **Over a run all stamps stay below the next one.** -/
theorem Run.sound {d d' : Desk} {as : List LedgerCall} (h : d.Run as d') (hd : d.Sound) :
    d'.Sound := by
  induction h with
  | nil => exact hd
  | cons ha _ ih => exact ih (hd.call _ ha)

end Desk

end TclAtlas
