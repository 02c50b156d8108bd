import TclAtlas.Parameter
import TclAtlas.Proofs.Text.Pieces

/-!
# Proofs/Parameter/Cutting — a parameter list is cut into specifiers

The pieces of a parameter list are cut into plain pieces and groups, where a group ends with the
first piece that is closed, or never (`Cut`).  Every list of pieces is cut so, and its specifiers
are the parts of the cut, put in a row (`exists_cut_specifiers`).  So the specifiers
of texts in a row can be read off a cut of the pieces (`Cut.specifiers_intercalate`), and specifiers
that are left out of a row leave the others as they are (`Cut.filter`).
-/

namespace TclAtlas.Parameter

/-! ## Cutting pieces -/

/-- **Pieces that close a group**: the last one is closed, and no other is. -/
inductive Closing : List Text → Prop
  | last {p : Text} (hp : isClosed p = true) : Closing [p]
  | cons {p : Text} {ps : List Text} (hp : isClosed p = false) (hps : Closing ps) :
      Closing (p :: ps)

/-- **Pieces cut into specifiers.** -/
inductive Cut : List (List Text) → Prop
  | nil : Cut []
  | plain {p : Text} {gs : List (List Text)} (hp : isGroup p = false) (hgs : Cut gs) :
      Cut ([p] :: gs)
  | group {p : Text} {ps : List Text} {gs : List (List Text)} (hp : isGroup p = true)
      (hps : Closing (p :: ps)) (hgs : Cut gs) : Cut ((p :: ps) :: gs)
  | unclosed {p : Text} {ps : List Text} (hp : isGroup p = true)
      (hps : ∀ q ∈ p :: ps, isClosed q = false) : Cut [p :: ps]

/-- Pieces have a first closed one, or none. -/
theorem closing_or_unclosed : ∀ ps : List Text,
    (∃ qs rest, ps = qs ++ rest ∧ Closing qs) ∨ ∀ q ∈ ps, isClosed q = false
  | [] => Or.inr (by simp)
  | p :: ps => by
    by_cases hp : isClosed p = true
    · exact Or.inl ⟨[p], ps, rfl, .last hp⟩
    · have hp : isClosed p = false := by simpa using hp
      rcases closing_or_unclosed ps with ⟨qs, rest, rfl, hqs⟩ | hnone
      · exact Or.inl ⟨p :: qs, rest, rfl, .cons hp hqs⟩
      · exact Or.inr (List.forall_mem_cons.mpr ⟨hp, hnone⟩)

/-- **All pieces are cut.** -/
theorem exists_cut (ps : List Text) : ∃ gs, Cut gs ∧ gs.flatten = ps := by
  induction hn : ps.length using Nat.strong_induction_on generalizing ps with
  | _ n ih =>
  rcases ps with _ | ⟨p, ps⟩
  · exact ⟨[], .nil, rfl⟩
  by_cases hp : isGroup p = true
  · rcases closing_or_unclosed (p :: ps) with ⟨qs, rest, hqs, hclosing⟩ | hnone
    · obtain ⟨q, qs, rfl⟩ : ∃ r rs, qs = r :: rs := by cases hclosing <;> exact ⟨_, _, rfl⟩
      obtain ⟨rfl, rfl⟩ := List.cons.inj (hqs.trans List.cons_append)
      have hshort : rest.length < n := by
        rw [← hn, List.length_cons, List.length_append]
        omega
      obtain ⟨gs, hgs, rfl⟩ := ih rest.length hshort rest rfl
      exact ⟨(p :: qs) :: gs, .group hp hclosing hgs, by simp⟩
    · exact ⟨[p :: ps], .unclosed hp hnone, by simp⟩
  · obtain ⟨gs, hgs, rfl⟩ := ih ps.length (by simp [← hn]) ps rfl
    exact ⟨[p] :: gs, .plain (by simpa using hp) hgs, by simp⟩

namespace Cut

variable {gs : List (List Text)}

theorem ne_nil (h : Cut gs) : ∀ g ∈ gs, g ≠ [] := by
  induction h with
  | nil => simp
  | unclosed hp hps => simp
  | plain hp hgs ih => exact List.forall_mem_cons.mpr ⟨List.cons_ne_nil _ _, ih⟩
  | group hp hps hgs ih => exact List.forall_mem_cons.mpr ⟨List.cons_ne_nil _ _, ih⟩

/-- **Parts may be left out of a cut.** -/
theorem filter (h : Cut gs) (keep : List Text → Bool) : Cut (gs.filter keep) := by
  induction h with
  | nil => exact .nil
  | @plain p gs hp hgs ih =>
    rw [List.filter_cons]
    split
    · exact .plain hp ih
    · exact ih
  | @group p ps gs hp hps hgs ih =>
    rw [List.filter_cons]
    split
    · exact .group hp hps ih
    · exact ih
  | unclosed hp hps =>
    rw [List.filter_cons, List.filter_nil]
    split
    · exact .unclosed hp hps
    · exact .nil

end Cut

/-! ## Putting pieces together -/

theorem isClosed_append {p : Text} (hp : p ≠ []) (s : Text) : isClosed (s ++ p) = isClosed p := by
  rw [isClosed, isClosed, List.getLast?_append_of_ne_nil s hp]

theorem isClosed_concat (s : Text) : isClosed (s ++ ['}']) = true := isClosed_append (by simp) s

theorem isClosed_append_space {p : Text} (hp : p ≠ []) (g : Text) :
    isClosed (g ++ ' ' :: p) = isClosed p := by
  rw [List.append_cons, isClosed_append hp]

theorem intercalate_space_cons (g p : Text) (ps : List Text) :
    [' '].intercalate ((g ++ ' ' :: p) :: ps) = [' '].intercalate (g :: p :: ps) := by
  rcases ps with _ | ⟨q, ps⟩ <;> simp

/-- A group that has begun takes in pieces up to the first closed one. -/
theorem assemble_closing {ps : List Text} (h : Closing ps) : (∀ p ∈ ps, p ≠ []) →
    ∀ (g : Text) (rest : List Text),
      assemble (some g) (ps ++ rest) = [' '].intercalate (g :: ps) :: assemble none rest := by
  induction h with
  | last hp =>
    intro hne g rest
    have hclosed := (isClosed_append_space (hne _ List.mem_cons_self) g).trans hp
    simp [assemble, hclosed]
  | @cons p ps hp hps ih =>
    intro hne g rest
    obtain ⟨hp', hne⟩ := List.forall_mem_cons.mp hne
    have hclosed := (isClosed_append_space hp' g).trans hp
    rw [List.cons_append, assemble, if_neg (by simp [hclosed]), ih hne, intercalate_space_cons]

/-- A group that is never closed takes in all pieces. -/
theorem assemble_unclosed : ∀ {ps : List Text}, (∀ p ∈ ps, p ≠ [] ∧ isClosed p = false) →
    ∀ g : Text, assemble (some g) ps = [[' '].intercalate (g :: ps)]
  | [], _, g => by simp [assemble]
  | p :: ps, h, g => by
    obtain ⟨⟨hne, hp⟩, hps⟩ := List.forall_mem_cons.mp h
    have hclosed := (isClosed_append_space hne g).trans hp
    rw [assemble, if_neg (by simp [hclosed]), assemble_unclosed hps, intercalate_space_cons]

/-- **The specifiers are the parts of the cut, put in a row.** -/
theorem Cut.assemble_flatten {gs : List (List Text)} (h : Cut gs)
    (hne : ∀ g ∈ gs, ∀ p ∈ g, p ≠ []) : assemble none gs.flatten = gs.map [' '].intercalate := by
  induction h with
  | nil => rfl
  | @plain p gs hp hgs ih =>
    have ih := ih fun g hg => hne g (List.mem_cons_of_mem _ hg)
    simp [assemble, hp, ih]
  | @group p ps gs hp hps hgs ih =>
    obtain ⟨hne, hrest⟩ := List.forall_mem_cons.mp hne
    have ih := ih hrest
    rw [List.flatten_cons, List.cons_append, List.map_cons, ← ih]
    cases hps with
    | last hclosed => simp [assemble, hclosed]
    | cons hclosed hps =>
      rw [assemble, if_pos (by simp [hp, hclosed])]
      exact assemble_closing hps (List.forall_mem_cons.mp hne).2 p _
  | @unclosed p ps hp hps =>
    have hne := hne _ List.mem_cons_self
    have hps' := (List.forall_mem_cons.mp hps)
    rw [List.flatten_singleton, assemble, if_pos (by simp [hp, hps'.1]), List.map_singleton]
    exact assemble_unclosed (fun q hq => ⟨hne q (List.mem_cons_of_mem p hq), hps'.2 q hq⟩) p

/-- **Every list is cut**, and its specifiers are the parts put in a row. -/
theorem exists_cut_specifiers (list : Text) : ∃ gs, Cut gs ∧ gs.flatten = Text.pieces list ∧
    (∀ g ∈ gs, ∀ p ∈ g, Text.IsSolid p) ∧ specifiers list = gs.map [' '].intercalate := by
  obtain ⟨gs, hcut, hflat⟩ := exists_cut (Text.pieces list)
  have hsolid : ∀ g ∈ gs, ∀ p ∈ g, Text.IsSolid p := fun g hg p hp =>
    Text.isSolid_of_mem_pieces (hflat ▸ List.mem_flatten.mpr ⟨g, hg, hp⟩)
  refine ⟨gs, hcut, hflat, hsolid, ?_⟩
  rw [specifiers, ← hflat, hcut.assemble_flatten fun g hg p hp => (hsolid g hg p hp).1]

/-- **The specifiers of the parts of a cut** put in a row are these parts. -/
theorem Cut.specifiers_intercalate {gs : List (List Text)} (h : Cut gs)
    (hsolid : ∀ g ∈ gs, ∀ p ∈ g, Text.IsSolid p) :
    specifiers ([' '].intercalate (gs.map [' '].intercalate)) = gs.map [' '].intercalate := by
  have hflat : ∀ p ∈ gs.flatten, Text.IsSolid p := fun p hp =>
    have ⟨g, hg, hp⟩ := List.mem_flatten.mp hp
    hsolid g hg p hp
  rw [Text.intercalate_flatten [' '] h.ne_nil, specifiers, Text.pieces_intercalate hflat,
    h.assemble_flatten fun g hg p hp => (hsolid g hg p hp).1]

/-- A row is, or begins, a group as its first piece does. -/
theorem isGroup_intercalate {p : Text} (hp : p ≠ []) (ps : List Text) :
    isGroup ([' '].intercalate (p :: ps)) = isGroup p := by
  obtain ⟨c, cs, rfl⟩ := List.exists_cons_of_ne_nil hp
  rcases ps with _ | ⟨q, ps⟩ <;> simp [isGroup]

/-- A part that does not begin a group is one piece. -/
theorem Cut.isSolid_of_plain {gs : List (List Text)} (h : Cut gs)
    (hsolid : ∀ g ∈ gs, ∀ p ∈ g, Text.IsSolid p) {g : List Text} (hg : g ∈ gs)
    (hplain : isGroup ([' '].intercalate g) = false) : Text.IsSolid ([' '].intercalate g) := by
  induction h with
  | nil => simp at hg
  | @plain p gs hp hgs ih =>
    obtain ⟨hp', hsolid⟩ := List.forall_mem_cons.mp hsolid
    rcases List.mem_cons.mp hg with rfl | hg
    · simpa using hp' p List.mem_cons_self
    · exact ih hsolid hg
  | @group p ps gs hp hps hgs ih =>
    obtain ⟨hp', hsolid⟩ := List.forall_mem_cons.mp hsolid
    rcases List.mem_cons.mp hg with rfl | hg
    · rw [isGroup_intercalate (hp' p List.mem_cons_self).1, hp] at hplain
      exact absurd hplain (by decide)
    · exact ih hsolid hg
  | @unclosed p ps hp hps =>
    obtain rfl := List.mem_singleton.mp hg
    rw [isGroup_intercalate (hsolid _ hg p List.mem_cons_self).1, hp] at hplain
    exact absurd hplain (by decide)

end TclAtlas.Parameter
