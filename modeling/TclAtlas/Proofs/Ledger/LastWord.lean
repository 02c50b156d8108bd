import TclAtlas.Proofs.Ledger.Run
import Mathlib.Data.List.MinMax
import Mathlib.Data.List.Nodup

/-!
# Proofs/Ledger/LastWord — which commit of a file stands

Without rebuilds, what a ledger holds is told by the record of its commits: of each file the
**decisive** commit, which is the last one with the largest stamp, has the last word
(`Desk.Run.largest_stamp_wins`).  Commits that were refused are part of the record, but are never
decisive.  So as long as no ticket is used twice, the order of the commits does not matter.
-/

namespace TclAtlas

/-- **A commit**, done or refused: the ticket, and the outline or the removal. -/
abbrev Commit := UpdateTicket × Option Outline

namespace LedgerCall

/-- The calls that update single files by ticket. -/
def IsUpdate : LedgerCall → Prop
  | .issue _ | .commit _ _ => True
  | _ => False

/-- The commit that a call makes. -/
def commit? : LedgerCall → Option Commit
  | .commit t o => some (t, o)
  | _ => none

/-- **The commits among calls**, in order. -/
def commits (as : List LedgerCall) : List Commit := as.filterMap commit?

end LedgerCall

/-! ## Decisive commits -/

namespace Commit

/-- The commits of one file. -/
def ofFile (cs : List Commit) (file : FileId) : List Commit := cs.filter (·.1.file = file)

/-- **The decisive commit of a file**: of those with the largest stamp, the last. -/
def decisive (cs : List Commit) (file : FileId) : Option Commit :=
  (ofFile cs file).reverse.argmax (·.1.stamp)

theorem mem_ofFile_iff {cs : List Commit} {file : FileId} {c : Commit} :
    c ∈ ofFile cs file ↔ c ∈ cs ∧ c.1.file = file := by
  simp [ofFile]

/-- **A further commit is decisive** when its stamp is not below that of the one decisive so far. -/
theorem decisive_concat (cs : List Commit) (c : Commit) (file : FileId) :
    decisive (cs ++ [c]) file =
      if file = c.1.file ∧ ∀ d ∈ decisive cs file, d.1.stamp ≤ c.1.stamp then some c
      else decisive cs file := by
  by_cases hfile : file = c.1.file
  · subst hfile
    have hsplit : (ofFile (cs ++ [c]) c.1.file).reverse = c :: (ofFile cs c.1.file).reverse := by
      simp [ofFile]
    rw [decisive, hsplit, List.argmax_cons, ← decisive]
    rcases decisive cs c.1.file with _ | d
    · simp
    · by_cases h : c.1.stamp < d.1.stamp
      · simp [h]
      · simp [h, Nat.le_of_not_lt h]
  · have hskip : ofFile (cs ++ [c]) file = ofFile cs file := by
      rw [ofFile, List.filter_append, List.filter_singleton]
      simp [Ne.symm hfile, ofFile]
    rw [decisive, hskip, ← decisive, if_neg fun h => hfile h.1]

theorem decisive_eq_none_iff {cs : List Commit} {file : FileId} :
    decisive cs file = none ↔ ∀ c ∈ cs, c.1.file ≠ file := by
  rw [decisive, List.argmax_eq_none, List.reverse_eq_nil_iff, ofFile, List.filter_eq_nil_iff]
  simp

/-- The decisive commit is one of the file, and none of the file has a larger stamp. -/
theorem of_decisive_eq_some {cs : List Commit} {file : FileId} {c : Commit}
    (h : decisive cs file = some c) :
    c ∈ cs ∧ c.1.file = file ∧ ∀ d ∈ cs, d.1.file = file → d.1.stamp ≤ c.1.stamp := by
  have hc : c ∈ ofFile cs file := List.mem_reverse.mp (List.argmax_mem h)
  obtain ⟨hmem, hfile⟩ := mem_ofFile_iff.mp hc
  refine ⟨hmem, hfile, fun d hd hdfile => ?_⟩
  have hd' : d ∈ (ofFile cs file).reverse := List.mem_reverse.mpr (mem_ofFile_iff.mpr ⟨hd, hdfile⟩)
  exact List.le_of_mem_argmax (f := fun c : Commit => c.1.stamp) hd' h

/-- **The order of the commits does not matter** as long as no ticket is used twice. -/
theorem decisive_perm {cs cs' : List Commit} (h : cs.Perm cs') (hnodup : (cs.map Prod.fst).Nodup)
    (file : FileId) : decisive cs file = decisive cs' file := by
  rcases hd : decisive cs file with _ | c
  · refine (decisive_eq_none_iff.mpr fun c hc => ?_).symm
    exact decisive_eq_none_iff.mp hd c (h.mem_iff.mpr hc)
  · obtain ⟨hmem, hfile, hmax⟩ := of_decisive_eq_some hd
    rcases hd' : decisive cs' file with _ | c'
    · exact absurd hfile (decisive_eq_none_iff.mp hd' c (h.mem_iff.mp hmem))
    · obtain ⟨hmem', hfile', hmax'⟩ := of_decisive_eq_some hd'
      have hstamp : c.1.stamp = c'.1.stamp :=
        Nat.le_antisymm (hmax' c (h.mem_iff.mp hmem) hfile) (hmax c' (h.mem_iff.mpr hmem') hfile')
      have hticket : c.1 = c'.1 := by
        rcases c with ⟨⟨f, s⟩, o⟩
        rcases c' with ⟨⟨f', s'⟩, o'⟩
        obtain rfl : f = f' := hfile.trans hfile'.symm
        obtain rfl : s = s' := hstamp
        rfl
      rw [List.inj_on_of_nodup_map hnodup hmem (h.mem_iff.mpr hmem') hticket]

end Commit

/-! ## The record of a ledger -/

/-- **A ledger holds what a record of commits tells**: for each file the stamp and the outline of
its decisive commit. -/
structure Ledger.Records (l : Ledger) (cs : List Commit) : Prop where
  stamp? : ∀ file, l.stamp? file = (Commit.decisive cs file).map (·.1.stamp)
  outline? : ∀ file, l.catalog.outline? file = (Commit.decisive cs file).bind Prod.snd

namespace Ledger

theorem records_fresh (order : Arrangement) : (fresh order).Records [] :=
  ⟨fun _ => rfl, fun _ => rfl⟩

/-- A ticket is stale when the record has a commit of its file with a larger stamp. -/
theorem Records.isStale_eq_false_iff {l : Ledger} {cs : List Commit} (h : l.Records cs)
    (t : UpdateTicket) :
    l.isStale t = false ↔ ∀ d ∈ Commit.decisive cs t.file, d.1.stamp ≤ t.stamp := by
  have hstamp : l.committed.get? t.file = _ := h.stamp? t.file
  rw [← Bool.not_eq_true, isStale_iff, hstamp]
  rcases Commit.decisive cs t.file with _ | d <;> simp

/-- **One commit extends the record by one.** -/
theorem Records.commit {l : Ledger} {cs : List Commit} (h : l.Records cs) (t : UpdateTicket)
    (o : Option Outline) : (l.commit t o).2.Records (cs ++ [(t, o)]) := by
  have hwhen : ∀ file, (file = t.file ∧ l.isStale t = false) ↔
      (file = t.file ∧ ∀ d ∈ Commit.decisive cs file, d.1.stamp ≤ t.stamp) := by
    intro file
    refine and_congr_right ?_
    rintro rfl
    exact h.isStale_eq_false_iff t
  refine ⟨fun file => ?_, fun file => ?_⟩
  · rw [stamp?_commit, Commit.decisive_concat, apply_ite (Option.map _), h.stamp? file]
    exact if_congr (hwhen file) rfl rfl
  · rw [outline?_commit, Commit.decisive_concat, apply_ite (Option.bind · _), h.outline? file]
    exact if_congr (hwhen file) rfl rfl

end Ledger

namespace Desk

/-- **Over a run of updates the record grows by the commits made.** -/
theorem Run.records {d d' : Desk} {as : List LedgerCall} (h : d.Run as d')
    (has : ∀ a ∈ as, a.IsUpdate) {cs : List Commit} (hcs : d.ledger.Records cs) :
    d'.ledger.Records (cs ++ LedgerCall.commits as) := by
  induction h generalizing cs with
  | nil => simpa [LedgerCall.commits] using hcs
  | @cons d d' a as _ _ ih =>
    have hrest : ∀ a ∈ as, a.IsUpdate := fun a ha => has a (List.mem_cons_of_mem _ ha)
    rcases a with p | file | ⟨t, o⟩ | _ | _ | _ | _ | _
    case issue => exact ih hrest ⟨hcs.stamp?, hcs.outline?⟩
    case commit =>
      have hgrown := ih hrest (hcs.commit t o)
      rwa [List.append_assoc] at hgrown
    all_goals exact (has _ List.mem_cons_self).elim

/-- **The largest stamp wins, and of equal ones the last**, whatever the order of the commits: the
outline of a file is that of its decisive commit.  If no ticket is used twice, every order of the
same commits ends in the same outlines. -/
theorem Run.largest_stamp_wins {order : Arrangement} {d : Desk} {as : List LedgerCall}
    (h : (fresh order).Run as d) (has : ∀ a ∈ as, a.IsUpdate) :
    (∀ file, d.ledger.catalog.outline? file =
      (Commit.decisive (LedgerCall.commits as) file).bind Prod.snd) ∧
    (((LedgerCall.commits as).map Prod.fst).Nodup →
      ∀ (order' : Arrangement) (as' : List LedgerCall) (d' : Desk), (fresh order').Run as' d' →
        (∀ a ∈ as', a.IsUpdate) →
        (LedgerCall.commits as).Perm (LedgerCall.commits as') →
        ∀ file, d.ledger.catalog.outline? file = d'.ledger.catalog.outline? file) := by
  have hd := (h.records has (Ledger.records_fresh order)).outline?
  refine ⟨hd, fun hnodup order' as' d' h' has' hperm file => ?_⟩
  rw [hd, (h'.records has' (Ledger.records_fresh order')).outline?, List.nil_append,
    List.nil_append, Commit.decisive_perm hperm hnodup]

/-- Of an outline and an earlier removal the outline stands, committed first or last. -/
theorem outline_beats_earlier_removal :
    let issued := ((fresh .asCommitted).call (.issue ⟨0⟩)).call (.issue ⟨0⟩)
    let d := (issued.call (.commit ⟨⟨0⟩, 2⟩ (some .empty))).call (.commit ⟨⟨0⟩, 1⟩ none)
    let d' := (issued.call (.commit ⟨⟨0⟩, 1⟩ none)).call (.commit ⟨⟨0⟩, 2⟩ (some .empty))
    d.ledger.catalog.outline? ⟨0⟩ = some .empty ∧
      ∀ file, d.ledger.catalog.outline? file = d'.ledger.catalog.outline? file := by
  have hwin := @Run.largest_stamp_wins .asCommitted _ _
    (.cons (a := .issue ⟨0⟩) trivial (.cons (a := .issue ⟨0⟩) trivial
      (.cons (a := .commit ⟨⟨0⟩, 2⟩ (some .empty)) List.mem_cons_self
        (.single (a := .commit ⟨⟨0⟩, 1⟩ none) (List.mem_cons_of_mem _ List.mem_cons_self)))))
    (by simp [LedgerCall.IsUpdate])
  refine ⟨hwin.1 ⟨0⟩, hwin.2 (by decide)
    .asCommitted [.issue ⟨0⟩, .issue ⟨0⟩, .commit ⟨⟨0⟩, 1⟩ none, .commit ⟨⟨0⟩, 2⟩ (some .empty)]
      _ ?_ ?_ ?_⟩
  · exact .cons (a := .issue ⟨0⟩) trivial (.cons (a := .issue ⟨0⟩) trivial
      (.cons (a := .commit ⟨⟨0⟩, 1⟩ none) (List.mem_cons_of_mem _ List.mem_cons_self)
        (.single (a := .commit ⟨⟨0⟩, 2⟩ (some .empty)) List.mem_cons_self)))
  · simp [LedgerCall.IsUpdate]
  · exact .swap ..

end Desk

end TclAtlas
