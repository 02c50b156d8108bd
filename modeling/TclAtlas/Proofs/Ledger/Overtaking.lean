import TclAtlas.Proofs.Ledger.Run

/-!
# Proofs/Ledger/Overtaking — which tickets a rebuild makes void

A rebuild stamps the files that it lists and those that it drops from the catalog, so that a ticket
issued for one of them before the rebuild began can no longer be used.  A file that is neither keeps
the stamp it had, or none: its older tickets stay as good as they were.
`rebuild_overtakes_iff` says exactly which tickets are void for good.
-/

namespace TclAtlas.Desk

/-- **The stamps a rebuild leaves, seen by an older ticket.** -/
theorem isStale_commitRebuild {l : Ledger} {r : RebuildTicket} (hr : r.generation = l.generation)
    (os : List (FileId × Outline)) {t : UpdateTicket} (ht : t.stamp < r.started) :
    (l.commitRebuild r os).2.isStale t = true ↔
      t.file ∈ os.map Prod.fst ∨ t.file ∈ l.catalog.files ∨ l.isStale t = true := by
  have hnewer : t.file ∈ l.newerThan r → l.isStale t = true := by
    intro h
    obtain ⟨stamp, hs, hlt⟩ := (l.mem_newerThan_iff r t.file).mp h
    exact (l.isStale_iff t).mpr ⟨stamp, hs, ht.trans hlt⟩
  have hstamp := Ledger.stamp?_commitRebuild hr os t.file
  rw [Ledger.isStale_iff, show ((l.commitRebuild r os).2.committed.get? t.file) = _ from hstamp]
  by_cases h : t.file ∉ l.newerThan r ∧ (t.file ∈ os.map Prod.fst ∨ t.file ∈ l.catalog.files)
  · rw [if_pos h]
    exact ⟨fun _ => (or_assoc.mp (Or.inl h.2)), fun _ => ⟨r.started, rfl, ht⟩⟩
  · rw [if_neg h]
    refine (l.isStale_iff t).symm.trans ⟨fun hs => Or.inr (Or.inr hs), ?_⟩
    rintro (hf | hf | hf)
    · exact hnewer (not_not.mp fun hn => h ⟨hn, Or.inl hf⟩)
    · exact hnewer (not_not.mp fun hn => h ⟨hn, Or.inr hf⟩)
    · exact hf

/-- **A rebuild makes an older ticket void for good** exactly when it lists the ticket's file, or
drops it from the catalog, or the ticket was void already. -/
theorem rebuild_overtakes_iff {order : Arrangement} {before during : Desk} {as bs : List LedgerCall}
    {t : UpdateTicket} (hbefore : (fresh order).Run as before) (ht : t ∈ before.updates)
    (_hduring : (before.call .beginRebuild).Run bs during) (os : List (FileId × Outline))
    (hdone : (during.ledger.commitRebuild before.ledger.beginRebuild.1 os).1 = true) :
    (∀ cs d, (during.call (.commitRebuild before.ledger.beginRebuild.1 os)).Run cs d →
        ∀ o, d.ledger.commit t o = (false, d.ledger)) ↔
      t.file ∈ os.map Prod.fst ∨ t.file ∈ during.ledger.catalog.files ∨
        during.ledger.isStale t = true := by
  have hgen : before.ledger.beginRebuild.1.generation = during.ledger.generation := by
    simpa [Ledger.commitRebuild_fst] using hdone
  have hlt : t.stamp < before.ledger.beginRebuild.1.started :=
    (hbefore.sound (sound_fresh order)).update_lt t ht
  rw [← isStale_commitRebuild hgen os hlt]
  constructor
  · intro h
    by_contra hstale
    have hcommit := h [] _ (.nil _) (some .empty)
    rw [call, Ledger.commit_of_not_stale (by simpa using hstale)] at hcommit
    exact absurd (congrArg Prod.fst hcommit) (by simp)
  · intro hstale cs d hrun o
    exact Ledger.commit_of_stale (hrun.advances.isStale hstale) o

/-- A file that was in the catalog and is dropped: its older ticket is void. -/
theorem rebuild_overtakes_dropped :
    let issued := ((fresh .asCommitted).call (.issue ⟨0⟩)).call (.commit ⟨⟨0⟩, 1⟩ (some .empty))
    let before := issued.call (.issue ⟨0⟩)
    ((before.call .beginRebuild).ledger.commitRebuild ⟨1, 3⟩ []).1 = true ∧
      ∀ cs d, ((before.call .beginRebuild).call (.commitRebuild ⟨1, 3⟩ [])).Run cs d →
        ∀ o, d.ledger.commit ⟨⟨0⟩, 2⟩ o = (false, d.ledger) :=
  ⟨by decide, (rebuild_overtakes_iff (t := ⟨⟨0⟩, 2⟩)
    (.cons (a := .issue ⟨0⟩) trivial (.cons (a := .commit ⟨⟨0⟩, 1⟩ (some .empty))
      List.mem_cons_self (.single (a := .issue ⟨0⟩) trivial)))
    (by decide) (.nil _) [] (by decide)).mpr (Or.inr (Or.inl (by decide)))⟩

/-- **A file neither listed nor in the catalog is not overtaken**: the ticket issued for it before
the rebuild began is heeded afterwards. -/
theorem not_rebuild_overtakes_all :
    ¬ ∀ (before during d : Desk) (as bs cs : List LedgerCall) (t : UpdateTicket)
        (os : List (FileId × Outline)) (o : Option Outline),
      (fresh .asCommitted).Run as before → t ∈ before.updates →
      (before.call .beginRebuild).Run bs during →
      (during.ledger.commitRebuild before.ledger.beginRebuild.1 os).1 = true →
      (during.call (.commitRebuild before.ledger.beginRebuild.1 os)).Run cs d →
      d.ledger.commit t o = (false, d.ledger) := by
  intro h
  have hvoid := h ((fresh .asCommitted).call (.issue ⟨0⟩)) _ _ [.issue ⟨0⟩] [] [] ⟨⟨0⟩, 1⟩ []
    (some .empty) (.single trivial) (by decide) (.nil _) (by decide) (.nil _)
  exact absurd (congrArg Prod.fst hvoid) (by decide)

end TclAtlas.Desk
