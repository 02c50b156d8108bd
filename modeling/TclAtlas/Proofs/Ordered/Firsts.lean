import Mathlib.Data.List.Induction
import Mathlib.Data.List.Nodup

/-!
# Proofs/Ordered/Firsts — members in the order in which they first occur

The **firsts** of a list are its members, each once, in the order in which they first occur in it
(`Distinct.Firsts`).  To erase the repetitions in a list is to list its firsts (`firsts_eraseDups`).
-/

namespace TclAtlas.Distinct

variable {α : Type u} [BEq α] [LawfulBEq α] {l m : List α}

/-- **The firsts of a list**: its members, in the order of their first positions in it. -/
structure Firsts (l m : List α) : Prop where
  mem_iff : ∀ a, a ∈ m ↔ a ∈ l
  ascending : m.Pairwise fun a b => l.idxOf a < l.idxOf b

omit [LawfulBEq α] in
theorem Firsts.nodup (h : Firsts l m) : m.Nodup :=
  h.ascending.imp fun hlt heq => by simp [heq] at hlt

/-- **A further member** is a new first, unless it has occurred. -/
theorem eraseDups_concat (l : List α) (a : α) :
    (l ++ [a]).eraseDups = l.eraseDups ++ if l.elem a then [] else [a] := by
  rw [List.eraseDups_append]
  by_cases ha : a ∈ l <;> simp [List.removeAll, ha, List.eraseDups_cons]

/-- **Without its repetitions, a list is the list of its firsts.** -/
theorem firsts_eraseDups (l : List α) : Firsts l l.eraseDups where
  mem_iff a := List.mem_eraseDups
  ascending := by
    induction l using List.reverseRecOn with
    | nil => exact List.Pairwise.nil
    | append_singleton l a ih =>
      have hold : l.eraseDups.Pairwise fun b c => (l ++ [a]).idxOf b < (l ++ [a]).idxOf c := by
        refine ih.imp_of_mem fun {b c} hb hc hbc => ?_
        rw [List.idxOf_append_of_mem (List.mem_eraseDups.mp hb),
          List.idxOf_append_of_mem (List.mem_eraseDups.mp hc)]
        exact hbc
      rw [eraseDups_concat]
      by_cases ha : a ∈ l
      · simpa [ha] using hold
      · -- the new member stands after all others
        refine List.pairwise_append.mpr ⟨hold, by split <;> simp, fun b hb c hc => ?_⟩
        have hb : b ∈ l := List.mem_eraseDups.mp hb
        obtain rfl : c = a := by simpa [ha] using hc
        rw [List.idxOf_append_of_mem hb, List.idxOf_append_of_notMem ha]
        have := List.idxOf_lt_length_of_mem hb
        omega

/-- **Where two lists have no member in common**, repetitions are erased in each of them. -/
theorem eraseDups_append_of_disjoint (h : ∀ a ∈ m, a ∉ l) :
    (l ++ m).eraseDups = l.eraseDups ++ m.eraseDups := by
  have hm : m.removeAll l = m := List.filter_eq_self.mpr fun a ha => by simp [h a ha]
  rw [List.eraseDups_append, hm]

end TclAtlas.Distinct
