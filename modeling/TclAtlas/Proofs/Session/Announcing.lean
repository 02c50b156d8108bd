import TclAtlas.Proofs.Ledger.Run
import TclAtlas.Proofs.Session.Batches
import TclAtlas.Proofs.Session.Interventions

/-!
# Proofs/Session/Announcing — no change goes unannounced

Calls of a curator run inside one another, each reading files while others come and go.  What
happens from one session to a later one is **accounted for** (`Session.Accounts`): the notices sent
in between cover every file whose outline is another one, and the outcomes recorded in between show
how many rebuilds have begun.  This can be chained, so interventions may be nested at will; and a
call adds to it a single notice when its own commits changed something, and none otherwise.

So subscribers learn of every change, and a rebuild fails exactly when another one began while it
was loading (`Session.no_silent_change`).
-/

namespace TclAtlas

/-- **Whether a notice covers a file**: it names the file, or tells of a full rebuild. -/
def Notice.Covers (n : Notice) (file : FileId) : Prop := n.fullRebuild = true ∨ file ∈ n.files

namespace Outcome

variable {σ : Type} {src : FileSource σ} {α : Type u}

/-- Whether an outcome is that of a rebuild. -/
def isRebuilt : Outcome α → Bool
  | .rebuilt _ => true
  | _ => false

/-- **Whether an outcome tells of a change.** -/
def tells : Outcome α → Bool
  | .handled changed => changed
  | .batchHandled files => !files.isEmpty
  | .rebuilt files => files.isSome
  | _ => false

/-- Outcomes of rebuilds are counted when there are any. -/
theorem countP_isRebuilt_pos_iff {told : List (Outcome α)} :
    0 < told.countP isRebuilt ↔ ∃ n, .rebuilt n ∈ told := by
  rw [List.countP_pos_iff]
  constructor
  · rintro ⟨o, ho, hrebuilt⟩
    rcases o with _ | _ | _ | n | _ | _ | _
    case rebuilt => exact ⟨n, ho⟩
    all_goals exact absurd hrebuilt Bool.false_ne_true
  · rintro ⟨n, hn⟩
    exact ⟨_, hn, rfl⟩

end Outcome

namespace Session

variable {σ : Type} {src : FileSource σ} {α : Type u}

/-- The outline of a file at the time of a session. -/
def outline? (s : Session src α) (file : FileId) : Option Outline :=
  s.curator.ledger.catalog.outline? file

/-- How many rebuilds have begun by the time of a session. -/
def generation (s : Session src α) : Nat := s.curator.ledger.generation

/-! ## What is accounted for -/

/-- **What happens from one session to a later one**, with the notices sent and the outcomes
recorded in between: the notices cover every file with another outline, and the outcomes tell how
many rebuilds have begun. -/
structure Accounts (s s' : Session src α) (sent : List Emission) (told : List (Outcome α)) :
    Prop where
  emissions : s'.emissions = s.emissions ++ sent
  outcomes : s'.outcomes = s.outcomes ++ told
  covered : ∀ file, s'.outline? file ≠ s.outline? file → ∃ e ∈ sent, e.notice.Covers file
  generation : s'.generation = s.generation + told.countP Outcome.isRebuilt

namespace Accounts

variable {s s' s'' : Session src α} {sent sent' : List Emission} {told told' : List (Outcome α)}

theorem refl (s : Session src α) : s.Accounts s [] [] where
  emissions := (List.append_nil _).symm
  outcomes := (List.append_nil _).symm
  covered _ h := absurd rfl h
  generation := rfl

theorem trans (h : s.Accounts s' sent told) (h' : s'.Accounts s'' sent' told') :
    s.Accounts s'' (sent ++ sent') (told ++ told') where
  emissions := by rw [h'.emissions, h.emissions, List.append_assoc]
  outcomes := by rw [h'.outcomes, h.outcomes, List.append_assoc]
  covered file hfile := by
    by_cases hlater : s''.outline? file = s'.outline? file
    · obtain ⟨e, he, hcovers⟩ := h.covered file (hlater ▸ hfile)
      exact ⟨e, List.mem_append_left _ he, hcovers⟩
    · obtain ⟨e, he, hcovers⟩ := h'.covered file hlater
      exact ⟨e, List.mem_append_right _ he, hcovers⟩
  generation := by rw [h'.generation, h.generation, List.countP_append, Nat.add_assoc]

end Accounts

/-- **What happens in between is accounted for** by some notices and outcomes. -/
def Accounted (s s' : Session src α) : Prop := ∃ sent told, s.Accounts s' sent told

theorem spanning_accounted : Spanning (@Accounted σ src α) where
  refl s := ⟨[], [], .refl s⟩
  trans := by
    rintro s s' s'' ⟨sent, told, h⟩ ⟨sent', told', h'⟩
    exact ⟨sent ++ sent', told ++ told', h.trans h'⟩
  waiting s _ := ⟨[], [], (Accounts.refl s).emissions, (Accounts.refl s).outcomes,
    fun _ h => absurd rfl h, rfl⟩

/-! ## Reading -/

section

variable {inner : List (Step σ α) → Session src α → Session src α}

/-- **Up to its commit** a call does nothing but begin a rebuild, if it is for one, and what is
accounted for. -/
theorem exists_accounted_afterReading (hinner : ∀ steps s, Accounted s (inner steps s))
    (s : Session src α) (r : Request) : ∃ begun : Session src α,
      begun.Accounted (s.afterReading inner r) ∧ begun.emissions = s.emissions ∧
        begun.outcomes = s.outcomes ∧ (∀ file, begun.outline? file = s.outline? file) ∧
        begun.generation = s.generation + if r.isRebuild then 1 else 0 := by
  have hscanned : ∀ events, ∃ begun : Session src α, begun.Accounted (s.scanned inner events).2 ∧
      begun.emissions = s.emissions ∧ begun.outcomes = s.outcomes ∧
        (∀ file, begun.outline? file = s.outline? file) ∧ begun.generation = s.generation := by
    intro events
    have hissued := s.curator.ledger.issueAll_snd
      (events.filter fun e => s.curator.selection.accepts e.path)
    refine ⟨_, spanning_accounted.scanAll hinner _ _, rfl, rfl, fun file => ?_, ?_⟩
    · exact congrArg (·.catalog.outline? file) hissued
    · exact (congrArg Ledger.generation hissued :)
  have hloaded : ∀ s : Session src α, ∃ begun : Session src α, begun.Accounted (s.loaded inner).2 ∧
      begun.emissions = s.emissions ∧ begun.outcomes = s.outcomes ∧
        (∀ file, begun.outline? file = s.outline? file) ∧ begun.generation = s.generation + 1 :=
    fun s => ⟨_, spanning_accounted.load hinner _ _, rfl, rfl, fun _ => rfl, rfl⟩
  rcases r with event | events | _ | sel
  · exact hscanned [event]
  · exact hscanned events
  · exact hloaded s
  · exact hloaded (s.select sel)

/-! ## Committing -/

variable (inner)

/-- **A batch tells of what its commits change**, if there is anything. -/
theorem exists_accounts_handleBatch (s : Session src α) (events : List FileEvent) : ∃ own,
    (s.scanned inner events).2.Accounts (s.handleBatch inner events).2 own [] ∧
      own.length = if (s.handleBatch inner events).1.isEmpty then 0 else 1 := by
  rw [handleBatch_eq]
  refine ⟨_, ⟨emissions_settle .., (outcomes_settle ..).trans (List.append_nil _).symm, ?_, ?_⟩, ?_⟩
  · intro file hfile
    rw [outline?, curator_settle] at hfile
    have hmem : file ∈ (s.batchCommit inner events).1 := Ledger.mem_commitAll_of_ne _ _ hfile
    rw [if_neg (List.ne_nil_of_mem hmem)]
    exact ⟨_, List.mem_singleton_self _, Or.inr hmem⟩
  · rw [generation, curator_settle]
    exact Ledger.generation_commitAll _ _
  · rcases (s.batchCommit inner events).1 with _ | ⟨file, files⟩ <;> rfl

/-- **A rebuild tells of itself**, unless it is refused. -/
theorem exists_accounts_rebuild (s : Session src α) : ∃ own,
    (s.loaded inner).2.Accounts (s.rebuild inner).2 own [] ∧
      own.length = if (s.rebuild inner).1.isSome then 1 else 0 := by
  rw [rebuild_eq]
  refine ⟨_, ⟨emissions_conclude .., (outcomes_conclude ..).trans (List.append_nil _).symm, ?_, ?_⟩,
    ?_⟩
  · intro file hfile
    rw [outline?, curator_conclude] at hfile
    rcases hdone : (s.rebuildCommit inner).1 with _ | files
    · exact absurd (Ledger.outline?_concludeRebuild_of_none hdone file) hfile
    · exact ⟨_, List.mem_singleton_self _, Or.inl rfl⟩
  · rw [generation, curator_conclude]
    exact Ledger.generation_concludeRebuild ..
  · rcases (s.rebuildCommit inner).1 with _ | files <;> rfl

/-- **A rebuild is refused** when by the time of its commit another one has begun. -/
theorem rebuild_eq_none_iff (s : Session src α) :
    (s.rebuild inner).1 = none ↔ (s.loaded inner).2.generation ≠ s.generation + 1 := by
  rw [rebuild_eq, Option.map_eq_none_iff, rebuildCommit, Ledger.concludeRebuild_fst]
  simp only [ite_eq_right_iff, reduceCtorEq, imp_false]
  exact not_congr eq_comm

/-- **What a call commits, it tells of.** -/
theorem exists_accounts_perform (s : Session src α) (r : Request) : ∃ own,
    (s.afterReading inner r).Accounts (s.perform inner r.step).2 own [] ∧
      own.length = (if (s.perform inner r.step).1.tells then 1 else 0) ∧
      (s.perform inner r.step).1.isRebuilt = r.isRebuild ∧
      (r.isRebuild = true → ((s.perform inner r.step).1 = .rebuilt none ↔
        (s.afterReading inner r).generation ≠ s.generation + 1)) := by
  have hbatch : ∀ events, ∃ own,
      (s.scanned inner events).2.Accounts (s.handleBatch inner events).2 own [] ∧
        own.length = if (!(s.handleBatch inner events).1.isEmpty) = true then 1 else 0 := by
    intro events
    obtain ⟨own, haccounts, hlength⟩ := s.exists_accounts_handleBatch inner events
    refine ⟨own, haccounts, hlength.trans ?_⟩
    rcases (s.handleBatch inner events).1.isEmpty <;> rfl
  have hrebuilt : ∀ n : Option Nat, (.rebuilt n : Outcome α) = .rebuilt none ↔ n = none :=
    fun n => ⟨fun h => Outcome.rebuilt.inj h, fun h => congrArg _ h⟩
  rcases r with event | events | _ | sel
  · obtain ⟨own, haccounts, hlength⟩ := hbatch [event]
    exact ⟨own, haccounts, hlength, rfl, fun h => absurd h Bool.false_ne_true⟩
  · obtain ⟨own, haccounts, hlength⟩ := hbatch events
    exact ⟨own, haccounts, hlength, rfl, fun h => absurd h Bool.false_ne_true⟩
  · obtain ⟨own, haccounts, hlength⟩ := s.exists_accounts_rebuild inner
    exact ⟨own, haccounts, hlength, rfl, fun _ => (hrebuilt _).trans (s.rebuild_eq_none_iff inner)⟩
  · obtain ⟨own, haccounts, hlength⟩ := (s.select sel).exists_accounts_rebuild inner
    exact ⟨own, haccounts, hlength, rfl,
      fun _ => (hrebuilt _).trans ((s.select sel).rebuild_eq_none_iff inner)⟩

end

/-! ## The whole call -/

/-- **A call and its outcome** are accounted for. -/
theorem accounted_request {inner : List (Step σ α) → Session src α → Session src α}
    (hinner : ∀ steps s, Accounted s (inner steps s)) (s : Session src α) (r : Request) :
    s.Accounted ((s.perform inner r.step).2.record (s.perform inner r.step).1) := by
  obtain ⟨begun, ⟨during, told, hduring⟩, hemissions, houtcomes, houtline, hbegun⟩ :=
    exists_accounted_afterReading hinner s r
  obtain ⟨own, hown, -, hrebuilt, -⟩ := s.exists_accounts_perform inner r
  have hall := hduring.trans hown
  refine ⟨during ++ own, told ++ [(s.perform inner r.step).1], ?_, ?_, fun file hfile => ?_, ?_⟩
  · exact hall.emissions.trans (congrArg (· ++ _) hemissions)
  · rw [record, hall.outcomes, houtcomes, List.append_nil, List.append_assoc]
  · exact hall.covered file (houtline file ▸ hfile)
  · have hcount : [(s.perform inner r.step).1].countP Outcome.isRebuilt =
        if r.isRebuild then 1 else 0 := by
      rw [List.countP_singleton, hrebuilt]
    have hgeneration : (s.perform inner r.step).2.generation =
        begun.generation + (told ++ []).countP Outcome.isRebuilt := hall.generation
    rw [List.countP_append, hcount]
    rw [List.append_nil, hbegun] at hgeneration
    exact hgeneration.trans (by omega)

theorem accounted_perform {inner : List (Step σ α) → Session src α → Session src α}
    (hinner : ∀ steps s, Accounted s (inner steps s)) (s : Session src α) :
    ∀ step, s.Accounted ((s.perform inner step).2.record (s.perform inner step).1)
  | .handle event => accounted_request hinner s (.handle event)
  | .handleBatch events => accounted_request hinner s (.handleBatch events)
  | .rebuild => accounted_request hinner s .rebuild
  | .reconfigure sel => accounted_request hinner s (.reconfigure sel)
  | .alter _ | .intervene _ _ | .subscribe | .unsubscribe _
  | .observe _ =>
    ⟨[], [_], (List.append_nil _).symm, rfl, fun _ h => absurd rfl h, rfl⟩

/-- **What interventions do is accounted for**, however deep they are nested. -/
theorem accounted_interventions (levels : Nat) (steps : List (Step σ α)) (s : Session src α) :
    s.Accounted (interventions levels steps s) :=
  spanning_accounted.interventions (fun _ => accounted_perform) levels steps s

/-- **No silent change.**  Take any call that concerns the files, with any steps carried out in the
middle of it.  Let `during` be the notices sent until it has read its files and is about to commit,
and `own` those sent from then on.  A file whose outline is another one after the call is covered by
one of these notices.  The call itself sends one notice if its outcome tells of a change, and else
none; then its own commits have left every outline as it was.  A rebuild is refused exactly when
among the outcomes of the steps carried out in the middle of it is that of another rebuild. -/
theorem no_silent_change (levels : Nat) (s : Session src α) (r : Request) :
    let read := s.afterReading (interventions levels) r
    let done := s.perform (interventions levels) r.step
    ∃ (during own : List Emission) (told : List (Outcome α)),
      read.emissions = s.emissions ++ during ∧
      done.2.emissions = s.emissions ++ during ++ own ∧
      done.2.outcomes = s.outcomes ++ told ∧
      (∀ file, done.2.outline? file ≠ s.outline? file →
        ∃ e ∈ during ++ own, e.notice.Covers file) ∧
      (own.length = if done.1.tells then 1 else 0) ∧
      (done.1.tells = false → ∀ file, done.2.outline? file = read.outline? file) ∧
      (r.isRebuild = true → (done.1 = .rebuilt none ↔ ∃ n, .rebuilt n ∈ told)) := by
  intro read done
  obtain ⟨begun, ⟨during, told, hduring⟩, hemissions, houtcomes, houtline, hbegun⟩ :=
    exists_accounted_afterReading (accounted_interventions levels) s r
  obtain ⟨own, hown, hlength, -, hrefused⟩ := s.exists_accounts_perform (interventions levels) r
  have hread : read.emissions = s.emissions ++ during :=
    hduring.emissions.trans (congrArg (· ++ _) hemissions)
  refine ⟨during, own, told, hread, ?_, ?_, fun file hfile => ?_, hlength, fun htells => ?_, ?_⟩
  · exact hown.emissions.trans (congrArg (· ++ own) hread)
  · exact (hown.outcomes.trans (List.append_nil _)).trans
      (hduring.outcomes.trans (congrArg (· ++ told) houtcomes))
  · exact (hduring.trans hown).covered file (houtline file ▸ hfile)
  · rw [htells] at hlength
    have hnone : own = [] := List.length_eq_zero_iff.mp hlength
    intro file
    by_contra hfile
    obtain ⟨e, he, -⟩ := hown.covered file hfile
    exact absurd (hnone ▸ he) List.not_mem_nil
  · intro hrebuild
    have hgeneration : read.generation = s.generation + 1 + told.countP Outcome.isRebuilt := by
      rw [hduring.generation, hbegun, if_pos hrebuild]
    rw [hrefused hrebuild, ← Outcome.countP_isRebuilt_pos_iff]
    show read.generation ≠ s.generation + 1 ↔ _
    omega

/-- A session over a workspace of one file, with another rebuild to be made while the next one
lists it. -/
def twice : Session FileTree.source Unit where
  files := FileTree.empty.write (.ofText "w/a.tcl".toList) []
  curator := .start .asCommitted (Selection.nowhere.addRoot (.ofText ['w']))
  waiting := [(.collect (.ofText ['w']), [.handle (.created (.ofText "w/a.tcl".toList)), .rebuild])]
  emissions := []
  outcomes := []

/-- The outer rebuild is refused, and both changes are told of by the calls in the middle of it. -/
theorem no_silent_change_refused :
    let done := twice.perform (interventions 1) Request.rebuild.step
    done.1 = .rebuilt none ∧
      (∀ file, done.2.outline? file =
        (twice.afterReading (interventions 1) .rebuild).outline? file) ∧
      done.2.emissions.map Emission.notice = [⟨[⟨0⟩], false⟩, ⟨[⟨0⟩], true⟩] ∧
      ∀ file, done.2.outline? file ≠ twice.outline? file →
        ∃ e ∈ done.2.emissions, e.notice.Covers file := by
  intro done
  have hsent : twice.emissions = [] := rfl
  have htold : twice.outcomes = [] := rfl
  have hbegun : 0 < done.2.outcomes.countP Outcome.isRebuilt := by decide +kernel
  obtain ⟨during, own, told, -, hemissions, houtcomes, hcovered, -, hunchanged, hrefused⟩ :=
    no_silent_change 1 twice .rebuild
  rw [hsent, List.nil_append] at hemissions
  rw [houtcomes, htold, List.nil_append, Outcome.countP_isRebuilt_pos_iff] at hbegun
  have hnone := (hrefused rfl).mpr hbegun
  refine ⟨hnone, hunchanged (congrArg Outcome.tells hnone), by decide +kernel, ?_⟩
  rw [hemissions]
  exact hcovered

end Session

end TclAtlas
