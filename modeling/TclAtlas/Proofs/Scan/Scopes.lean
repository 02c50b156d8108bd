import TclAtlas.Scan

/-!
# Proofs/Scan/Scopes — the namespace blocks open in a scan

A line changes the state of a scan in two ways.  By its words it joins lines or opens one block
(`matchLine_cases`); then its braces and quotes count, and blocks are closed.  So the open blocks
are always **nested** (`Nested`): each lies deeper than those around it, and none deeper than the
braces that are open (`Nested.step`).  Where no brace is open no block is (`Nested.scopes_eq_nil`).

Blocks are closed from the innermost one outwards, up to the first that may stay open.  As they are
nested, none that must be closed is left under one that stays (`Nested.scopes_step`).
-/

namespace TclAtlas.ScanState

/-! ## What a line does to the state -/

/-- **What the words of a line do to the state**: nothing, or they join some of the lines below, or
they open one block. -/
theorem matchLine_cases (s : ScanState) (l : LineAt) :
    (s.matchLine l).1 = s ∨
    (∃ n ≤ l.below.length,
      (s.matchLine l).1 = { s with joinedUntil := max s.joinedUntil (l.number + 1 + n) }) ∨
    ∃ ns ≠ [], s.matchLine l =
      ({ s with scopes := ⟨ns, s.depth + 1⟩ :: s.scopes }, [.declared ns]) := by
  have hset : ∀ words, (s.matchSet l words).1 = s ∨ ∃ n ≤ l.below.length,
      (s.matchSet l words).1 = { s with joinedUntil := max s.joinedUntil (l.number + 1 + n) } := by
    intro words
    rw [matchSet.eq_def]
    split
    · split
      · exact Or.inr ⟨_, Continuation.joinFrom_le_length _ _, rfl⟩
      · exact Or.inl rfl
    · exact Or.inl rfl
  have hblock : ∀ words, s.matchBlock words = (s, []) ∨ ∃ ns ≠ [], s.matchBlock words =
      ({ s with scopes := ⟨ns, s.depth + 1⟩ :: s.scopes }, [.declared ns]) := by
    intro words
    rw [matchBlock.eq_def]
    split
    · simp only
      split
      · next h => exact Or.inr ⟨_, h.2.2, rfl⟩
      · exact Or.inl rfl
    · exact Or.inl rfl
  rw [matchLine]
  split
  · exact Or.inl rfl
  split
  · exact Or.inl rfl
  split
  · exact (hset _).imp_right Or.inl
  split
  · split
    · exact Or.inl rfl
    split
    · exact (hblock _).imp (congrArg Prod.fst) Or.inr
    split <;> exact Or.inl rfl
  split <;> exact Or.inl rfl

theorem step_fst (s : ScanState) (l : LineAt) :
    (s.step l).1 = ((lexemes l.text).foldl (count (s.isComment l.text))
      (if s.skips l then s else (s.matchLine l).1)).closeScopes := by
  rcases hskip : s.skips l <;> simp [step, hskip]

theorem step_snd (s : ScanState) (l : LineAt) :
    (s.step l).2 = if s.skips l then [] else (s.matchLine l).2 := by
  rcases hskip : s.skips l <;> simp [step, hskip]

/-- **Counting** changes the depth and whether a string is open, and nothing else. -/
theorem exists_foldl_count (comment : Bool) : ∀ (ls : List Lexeme) (s : ScanState),
    ∃ depth inString, ls.foldl (count comment) s = { s with depth, inString }
  | [], s => ⟨s.depth, s.inString, rfl⟩
  | l :: ls, s => by
    obtain ⟨depth, inString, hcount⟩ : ∃ depth inString,
        s.count comment l = { s with depth, inString } := by
      rw [count.eq_def]
      repeat' split
      all_goals exact ⟨_, _, rfl⟩
    obtain ⟨depth', inString', hrest⟩ := exists_foldl_count comment ls (s.count comment l)
    exact ⟨depth', inString', by rw [List.foldl_cons, hrest, hcount]⟩

@[simp] theorem scopes_foldl_count (comment : Bool) (ls : List Lexeme) (s : ScanState) :
    (ls.foldl (count comment) s).scopes = s.scopes := by
  obtain ⟨depth, inString, h⟩ := exists_foldl_count comment ls s
  rw [h]

@[simp] theorem joinedUntil_foldl_count (comment : Bool) (ls : List Lexeme) (s : ScanState) :
    (ls.foldl (count comment) s).joinedUntil = s.joinedUntil := by
  obtain ⟨depth, inString, h⟩ := exists_foldl_count comment ls s
  rw [h]

/-! ## Nested blocks -/

/-- **The open blocks are nested**, innermost first. -/
structure Nested (s : ScanState) : Prop where
  /-- Each block lies deeper than those around it. -/
  deeper : s.scopes.Pairwise (·.depth > ·.depth)
  pos : ∀ scope ∈ s.scopes, 0 < scope.depth
  /-- No block lies deeper than the open braces. -/
  le_depth : ∀ scope ∈ s.scopes, scope.depth ≤ s.depth

theorem nested_start : start.Nested := ⟨.nil, by simp [start], by simp [start]⟩

/-- **Without open braces there are no open blocks.** -/
theorem Nested.scopes_eq_nil {s : ScanState} (h : s.Nested) (hdepth : s.depth = 0) :
    s.scopes = [] := by
  refine List.eq_nil_iff_forall_not_mem.mpr fun scope hscope => ?_
  have hpos := h.pos scope hscope
  have hle := h.le_depth scope hscope
  omega

/-- **Of nested blocks, those that are too deep come first**, so dropping them from the innermost
outwards leaves just the others. -/
theorem dropWhile_eq_filter (d : Nat) : ∀ {scopes : List Scope},
    scopes.Pairwise (·.depth > ·.depth) →
    scopes.dropWhile (fun scope => d < scope.depth) = scopes.filter fun scope => scope.depth ≤ d
  | [], _ => rfl
  | first :: scopes, hdeeper => by
    obtain ⟨hfirst, hrest⟩ := List.pairwise_cons.mp hdeeper
    by_cases hd : d < first.depth
    · rw [List.dropWhile_cons_of_pos (by simpa using hd),
        List.filter_cons_of_neg (by simpa using hd), dropWhile_eq_filter d hrest]
    · rw [List.dropWhile_cons_of_neg (by simpa using hd)]
      refine (List.filter_eq_self.mpr fun scope hscope => ?_).symm
      rcases List.mem_cons.mp hscope with rfl | hscope
      · simpa using hd
      · have hlt := hfirst scope hscope
        simp only [decide_eq_true_eq]
        omega

/-- **What a line opens and closes**: it opens one block or none, inside the next brace, and then
closes all nested blocks that lie deeper than the braces it leaves open. -/
theorem Nested.scopes_step {s : ScanState} (h : s.Nested) (l : LineAt) :
    ∃ opened, (opened = [] ∨ ∃ ns, opened = [⟨ns, s.depth + 1⟩]) ∧
      (opened ++ s.scopes).Pairwise (·.depth > ·.depth) ∧
      (s.step l).1.scopes =
        (opened ++ s.scopes).filter fun scope => scope.depth ≤ (s.step l).1.depth := by
  obtain ⟨opened, hopened, hscopes⟩ : ∃ opened,
      (opened = [] ∨ ∃ ns, opened = [⟨ns, s.depth + 1⟩]) ∧
        (if s.skips l then s else (s.matchLine l).1).scopes = opened ++ s.scopes := by
    split
    · exact ⟨[], Or.inl rfl, rfl⟩
    rcases s.matchLine_cases l with hl | ⟨n, -, hl⟩ | ⟨ns, -, hl⟩
    · exact ⟨[], Or.inl rfl, by rw [hl]; rfl⟩
    · exact ⟨[], Or.inl rfl, by rw [hl]; rfl⟩
    · exact ⟨[⟨ns, s.depth + 1⟩], Or.inr ⟨ns, rfl⟩, by rw [hl]; rfl⟩
  have hdeeper : (opened ++ s.scopes).Pairwise (·.depth > ·.depth) := by
    rcases hopened with rfl | ⟨ns, rfl⟩
    · exact h.deeper
    · exact List.pairwise_cons.mpr
        ⟨fun scope hscope => Nat.lt_succ_of_le (h.le_depth scope hscope), h.deeper⟩
  refine ⟨opened, hopened, hdeeper, ?_⟩
  rw [step_fst, ← dropWhile_eq_filter _ hdeeper, closeScopes, scopes_foldl_count, hscopes]

/-- **A line keeps the open blocks nested.**  A block is opened at the depth inside its brace,
before that brace counts. -/
theorem Nested.step {s : ScanState} (h : s.Nested) (l : LineAt) : (s.step l).1.Nested := by
  obtain ⟨opened, hopened, hdeeper, hscopes⟩ := h.scopes_step l
  refine ⟨hscopes ▸ hdeeper.sublist List.filter_sublist, fun scope hscope => ?_,
    fun scope hscope => ?_⟩
  · rw [hscopes] at hscope
    rcases List.mem_append.mp (List.filter_sublist.subset hscope) with hnew | hold
    · rcases hopened with rfl | ⟨ns, rfl⟩
      · exact absurd hnew List.not_mem_nil
      · exact List.mem_singleton.mp hnew ▸ Nat.succ_pos s.depth
    · exact h.pos scope hold
  · rw [hscopes] at hscope
    simpa using (List.mem_filter.mp hscope).2

/-- **Over a run of lines the open blocks stay nested.** -/
theorem Nested.run (file : FileId) : ∀ (lines : List Text) (number : Nat) {s : ScanState},
    s.Nested → (run file number lines s).1.Nested
  | [], _, _, h => h
  | _ :: below, number, _, h => Nested.run file below (number + 1) (h.step _)

/-! ## Lines that are joined -/

/-- **A line joins no more lines than there are.** -/
theorem joinedUntil_step_le {s : ScanState} {l : LineAt} {n : Nat}
    (hn : l.number + 1 + l.below.length ≤ n) (hs : s.joinedUntil ≤ n) :
    (s.step l).1.joinedUntil ≤ n := by
  have hmatch : (s.matchLine l).1.joinedUntil ≤ n := by
    rcases s.matchLine_cases l with hl | ⟨k, hk, hl⟩ | ⟨ns, -, hl⟩
    · rwa [hl]
    · rw [hl]
      simp only
      omega
    · rwa [hl]
  rw [step_fst, closeScopes, joinedUntil_foldl_count]
  split
  · exact hs
  · exact hmatch

theorem joinedUntil_run_le (file : FileId) : ∀ (lines : List Text) (number : Nat) {s : ScanState},
    s.joinedUntil ≤ number + lines.length →
    (run file number lines s).1.joinedUntil ≤ number + lines.length
  | [], _, _, h => h
  | text :: below, number, s, h => by
    have hlength : number + (text :: below).length = number + 1 + below.length := by
      rw [List.length_cons]
      omega
    rw [hlength] at h ⊢
    exact joinedUntil_run_le file below (number + 1) (joinedUntil_step_le (Nat.le_refl _) h)

end TclAtlas.ScanState
