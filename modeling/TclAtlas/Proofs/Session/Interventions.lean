import TclAtlas.Session

/-!
# Proofs/Session/Interventions — what holds whatever happens in the middle of calls

A call reaches the files by listing and reading, and there the steps of interventions are carried
out, with calls of their own.  A relation between an earlier session and a later one gets past all
of this when it can be chained and does not look at the steps that wait (`Session.Spanning`): if it
holds over what is carried out in the middle, it holds over the reading of files
(`Spanning.load`, `Spanning.scanAll`).  So all that remains to show is that one step keeps to it;
then so do interventions, however deep they are nested (`Spanning.interventions`).
-/

namespace TclAtlas.Session

variable {σ : Type} {src : FileSource σ} {α : Type u}

/-- The session with one more outcome recorded. -/
def record (s : Session src α) (o : Outcome α) : Session src α :=
  { s with outcomes := s.outcomes ++ [o] }

/-- **A relation that spans interventions**, from an earlier session to a later one. -/
structure Spanning (R : Session src α → Session src α → Prop) : Prop where
  refl : ∀ s, R s s
  trans : ∀ {s s' s''}, R s s' → R s' s'' → R s s''
  /-- The steps that wait do not matter. -/
  waiting : ∀ s waiting, R s { s with waiting }

namespace Spanning

variable {R : Session src α → Session src α → Prop} (hR : Spanning R)

section

variable {inner : List (Step σ α) → Session src α → Session src α}
  (hinner : ∀ steps s, R s (inner steps s))

include hR hinner

theorem intervene (call : SourceCall) (s : Session src α) : R s (s.intervene inner call) := by
  rw [Session.intervene]
  split
  · exact hR.refl s
  · next steps _ => exact hR.trans (hR.waiting s _) (hinner steps _)

theorem collectAll (sel : Selection) : ∀ (roots : List Path) (s : Session src α),
    R s (s.collectAll inner sel roots).2
  | [], s => hR.refl s
  | root :: roots, s =>
    hR.trans (hR.intervene hinner (.collect root) s) (collectAll sel roots _)

theorem readAll : ∀ (ps : List Path) (s : Session src α), R s (s.readAll inner ps).2
  | [], s => hR.refl s
  | p :: ps, s => hR.trans (hR.intervene hinner (.read p) s) (readAll ps _)

/-- **Loading a workspace** keeps to the relation. -/
theorem load (sel : Selection) (s : Session src α) : R s (s.load inner sel).2 :=
  hR.trans (hR.collectAll hinner sel sel.searchPaths s) (hR.readAll hinner _ _)

theorem scan (p : Pending) (s : Session src α) : R s (s.scan inner p).2 := by
  rw [Session.scan]
  split
  · exact hR.refl s
  · exact hR.intervene hinner _ s
  · exact hR.intervene hinner _ s

/-- **Reading the files of accepted events** keeps to the relation. -/
theorem scanAll : ∀ (ps : List Pending) (s : Session src α), R s (s.scanAll inner ps).2
  | [], s => hR.refl s
  | p :: ps, s => hR.trans (hR.scan hinner p s) (scanAll ps _)

omit hinner in
/-- **Several steps** keep to the relation when each one does, its outcome recorded. -/
theorem performAll
    (hstep : ∀ s step, R s ((s.perform inner step).2.record (s.perform inner step).1)) :
    ∀ (steps : List (Step σ α)) (s : Session src α), R s (s.performAll inner steps)
  | [], s => hR.refl s
  | step :: steps, s => hR.trans (hstep s step) (performAll hstep steps _)

end

include hR in
/-- **Interventions keep to the relation**, however deep they are nested, when a step does under the
assumption that the interventions in it do. -/
theorem interventions
    (hstep : ∀ inner : List (Step σ α) → Session src α → Session src α,
      (∀ steps s, R s (inner steps s)) →
      ∀ s step, R s ((s.perform inner step).2.record (s.perform inner step).1)) :
    ∀ (levels : Nat) (steps : List (Step σ α)) (s : Session src α),
      R s (Session.interventions levels steps s)
  | 0, _, s => hR.refl s
  | levels + 1, steps, s =>
    hR.performAll (hstep _ (interventions hstep levels)) steps s

end Spanning

end TclAtlas.Session
