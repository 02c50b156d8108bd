import Mathlib.Data.List.Lex
import Mathlib.Order.Lattice

/-!
# Proofs/Ordered/Sorting — lists sorted by a key

A list sorted by comparing keys has ascending keys.  Where no two members share a key, they are
strictly ascending, and then only one order is left: whatever order the members were in before, they
are sorted into the same list (`mergeSort_eq_of_perm`).
-/

namespace TclAtlas

variable {α β : Type} [LinearOrder β] {f : α → β} {le : α → α → Bool}
  (hle : ∀ a b, le a b = true ↔ f a ≤ f b)

include hle

/-- **A list sorted by a comparison of keys** has ascending keys. -/
theorem pairwise_mergeSort_of_key (l : List α) :
    (l.mergeSort le).Pairwise fun a b => f a ≤ f b := by
  refine (List.pairwise_mergeSort (fun a b c hab hbc => ?_) (fun a b => ?_) l).imp (hle _ _).mp
  · exact (hle a c).mpr (((hle a b).mp hab).trans ((hle b c).mp hbc))
  · simpa [hle] using le_total (f a) (f b)

variable {l l' : List α} (hkeys : l.Pairwise fun a b => f a ≠ f b)

include hkeys

/-- Members with different keys are sorted strictly. -/
theorem pairwise_mergeSort_lt : (l.mergeSort le).Pairwise fun a b => f a < f b := by
  have hne : (l.mergeSort le).Pairwise fun a b => f a ≠ f b :=
    (List.mergeSort_perm l le).symm.pairwise hkeys fun h => h.symm
  exact (hne.and (pairwise_mergeSort_of_key hle l)).imp fun h => lt_of_le_of_ne h.2 h.1

/-- **Members with different keys** are sorted into one list, in whatever order they were. -/
theorem mergeSort_eq_of_perm (hperm : l.Perm l') : l.mergeSort le = l'.mergeSort le := by
  have hkeys' : l'.Pairwise fun a b => f a ≠ f b := hperm.pairwise hkeys fun h => h.symm
  have hsorted : (l.mergeSort le).Perm (l'.mergeSort le) :=
    (List.mergeSort_perm l le).trans (hperm.trans (List.mergeSort_perm l' le).symm)
  exact hsorted.eq_of_pairwise (fun a b _ _ hab hba => absurd hba hab.asymm)
    (pairwise_mergeSort_lt hle hkeys) (pairwise_mergeSort_lt hle hkeys')

end TclAtlas
