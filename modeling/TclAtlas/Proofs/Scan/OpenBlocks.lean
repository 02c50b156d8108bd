import TclAtlas.Proofs.Scan.Origins
import TclAtlas.Proofs.Scan.WellFormed

/-!
# Proofs/Scan/OpenBlocks — the open blocks as a stack

The depths of the open blocks are all different and lie between one and the number of open braces,
so there are no more blocks than braces (`ScanState.Nested.length_scopes_le`).  With what a line
opens and closes (`ScanState.Nested.scopes_step`) this says that the open blocks are a stack,
whatever lines are scanned and in whatever order (`Scanner.scopes_foldl_scanLine`).
-/

namespace TclAtlas

/-! ## Depths that fall -/

/-- **Different depths below a bound** are no more than the bound. -/
theorem length_le_of_pairwise_gt : ∀ {depths : List Nat} {n : Nat}, depths.Pairwise (· > ·) →
    (∀ d ∈ depths, 0 < d ∧ d ≤ n) → depths.length ≤ n
  | [], n, _, _ => Nat.zero_le n
  | d :: depths, n, hfalls, hbounds => by
    obtain ⟨hd, hrest⟩ := List.pairwise_cons.mp hfalls
    obtain ⟨hpos, hle⟩ := hbounds d List.mem_cons_self
    have hlength : depths.length ≤ d - 1 := by
      refine length_le_of_pairwise_gt hrest fun e he => ⟨?_, ?_⟩
      · exact (hbounds e (List.mem_cons_of_mem d he)).1
      · exact Nat.le_sub_one_of_lt (hd e he)
    rw [List.length_cons]
    omega

namespace ScanState

variable {s : ScanState}

/-- **There are no more open blocks than open braces.** -/
theorem Nested.length_scopes_le (h : s.Nested) : s.scopes.length ≤ s.depth := by
  rw [← List.length_map Scope.depth]
  refine length_le_of_pairwise_gt (List.pairwise_map.mpr h.deeper) fun d hd => ?_
  obtain ⟨scope, hscope, rfl⟩ := List.mem_map.mp hd
  exact ⟨h.pos scope hscope, h.le_depth scope hscope⟩

theorem Nested.current_eq_none (h : s.Nested) (hdepth : s.depth = 0) : s.current = none := by
  rw [current, h.scopes_eq_nil hdepth]
  rfl

end ScanState

/-! ## Scans in any order -/

namespace Scanner

/-- **The open blocks are a stack**, whatever lines are scanned and in whatever order.  Their depths
grow strictly from the outermost to the innermost, from one at least to the open braces at most.  So
there are no more of them than open braces, and no namespace is open where no brace is.  The next
line opens one block or none, within the braces open before it, and closes all that lie deeper than
the braces open after it: none of these is left under a block that stays open.  The names of open
blocks are not empty, and they are declared. -/
theorem scopes_foldl_scanLine (file : FileId) (lines : List Text) (numbers : List Nat) :
    let s := numbers.foldl (scanLine file lines) start
    (s.state.scopes.reverse.map Scope.depth).Pairwise (· < ·) ∧
    (∀ scope ∈ s.state.scopes, 1 ≤ scope.depth ∧ scope.depth ≤ s.state.depth) ∧
    s.state.scopes.length ≤ s.state.depth ∧
    (s.state.depth = 0 → s.state.current = none) ∧
    (∀ number, let t := scanLine file lines s number
      ∃ opened, (opened = [] ∨ ∃ ns, opened = [⟨ns, s.state.depth + 1⟩]) ∧
        t.state.scopes =
          (opened ++ s.state.scopes).filter fun scope => scope.depth ≤ t.state.depth) ∧
    ∀ scope ∈ s.state.scopes, scope.name ≠ [] ∧ scope.name ∈ s.outline.namespaces := by
  intro s
  have hnested : s.state.Nested := foldl_scanLine_of_step (P := fun s => s.state.Nested)
    ScanState.nested_start (fun s hs l => hs.step l) file lines numbers
  have hdeclares : s.DeclaresScopes := foldl_scanLine_of_step
    (fun _ h => absurd h List.not_mem_nil) (fun s hs l => hs.step l) file lines numbers
  have hproper := (wellFormed_foldl_scanLine file lines numbers).ne_nil_of_mem_namespaces
  refine ⟨?_, fun scope hscope => ⟨hnested.pos scope hscope, hnested.le_depth scope hscope⟩,
    hnested.length_scopes_le, hnested.current_eq_none, fun number => ?_, fun scope hscope => ?_⟩
  · rw [List.pairwise_map, List.pairwise_reverse]
    exact hnested.deeper
  · intro t
    rcases scanLine_cases file lines s number with ht | ⟨l, ht⟩
    · refine ⟨[], Or.inl rfl, ?_⟩
      rw [show t = s from ht, List.nil_append, List.filter_eq_self.mpr]
      simpa using hnested.le_depth
    · obtain ⟨opened, hopened, -, hscopes⟩ := hnested.scopes_step l
      rw [show t = s.step l from ht]
      exact ⟨opened, hopened, hscopes⟩
  · exact ⟨hproper _ (hdeclares scope hscope), hdeclares scope hscope⟩

/-- A block opened within itself by scanning its line twice, and all blocks closed by one line. -/
theorem scopes_foldl_scanLine_reopened :
    let lines := ["namespace eval a \x7b".toList,
      "namespace eval ::b \x7b proc p \x7b\x7d \x7b\x7d \x7d".toList, "\x7d\x7d\x7d".toList]
    let s := [0, 0, 7, 1].foldl (scanLine ⟨0⟩ lines) start
    let t := [0, 0, 7, 1, 2].foldl (scanLine ⟨0⟩ lines) start
    (s.state.scopes = [⟨"a::a".toList, 2⟩, ⟨['a'], 1⟩] ∧ "a::a".toList ∈ s.outline.namespaces) ∧
      t.state.depth = 0 ∧ t.state.current = none := by
  intro lines s t
  have hs : s.state.scopes = [⟨"a::a".toList, 2⟩, ⟨['a'], 1⟩] := by decide +kernel
  have ht : t.state.depth = 0 := by decide +kernel
  obtain ⟨-, -, -, -, -, hnames⟩ := scopes_foldl_scanLine ⟨0⟩ lines [0, 0, 7, 1]
  obtain ⟨-, -, -, hcurrent, -, -⟩ := scopes_foldl_scanLine ⟨0⟩ lines [0, 0, 7, 1, 2]
  exact ⟨⟨hs, (hnames _ (hs ▸ List.mem_cons_self)).2⟩, ht, hcurrent ht⟩

end Scanner

end TclAtlas
