/-!
# Ordered/Distinct — lists without repetition, in the order of first occurrence

`insertLast a l` puts `a` at the end of `l` unless it is there already; the list stays free of
repetition (`nodup_insertLast`) and gains exactly `a` (`mem_insertLast`).  Two such lists hold the
same members when each is contained in the other (`sameMembers_iff`).
-/

namespace TclAtlas.Distinct

variable {α : Type u}

/-- A list without repetition stays one when a new member comes last. -/
theorem nodup_append_singleton {a : α} {l : List α} (hl : l.Nodup) (h : a ∉ l) :
    (l ++ [a]).Nodup := by
  refine List.nodup_append.mpr ⟨hl, by simp, ?_⟩
  rintro x hx y hy rfl
  exact h (List.mem_singleton.mp hy ▸ hx)

variable [DecidableEq α]

/-- **The list with a member added at the end**, unless it is there already. -/
def insertLast (a : α) (l : List α) : List α := if a ∈ l then l else l ++ [a]

@[simp] theorem mem_insertLast {a b : α} {l : List α} : b ∈ insertLast a l ↔ b = a ∨ b ∈ l := by
  unfold insertLast
  split
  · next h => exact ⟨Or.inr, by rintro (rfl | hb) <;> assumption⟩
  · simp [or_comm]

theorem nodup_insertLast (a : α) {l : List α} (hl : l.Nodup) : (insertLast a l).Nodup := by
  unfold insertLast
  split
  · exact hl
  · next h => exact nodup_append_singleton hl h

/-- The list with several members added at the end, each unless it is there already. -/
def insertAll (as : List α) (l : List α) : List α := as.foldl (fun l a => insertLast a l) l

@[simp] theorem mem_insertAll {b : α} : ∀ {as l : List α}, b ∈ insertAll as l ↔ b ∈ as ∨ b ∈ l
  | [], l => by simp [insertAll]
  | a :: as, l => by
    have ih : b ∈ insertAll as (insertLast a l) ↔ b ∈ as ∨ b ∈ insertLast a l := mem_insertAll
    rw [show insertAll (a :: as) l = insertAll as (insertLast a l) from rfl, ih, mem_insertLast,
      List.mem_cons]
    constructor
    · rintro (h | h | h) <;> simp [h]
    · rintro ((h | h) | h) <;> simp [h]

theorem nodup_insertAll : ∀ (as : List α) {l : List α}, l.Nodup → (insertAll as l).Nodup
  | [], _, hl => hl
  | a :: as, _, hl => nodup_insertAll as (nodup_insertLast a hl)

/-- **Whether two lists hold the same members**, in whatever order. -/
def sameMembers (l m : List α) : Bool := l.all (· ∈ m) && m.all (· ∈ l)

theorem sameMembers_iff {l m : List α} : sameMembers l m = true ↔ ∀ a, a ∈ l ↔ a ∈ m := by
  simp only [sameMembers, Bool.and_eq_true, List.all_eq_true, decide_eq_true_eq]
  exact ⟨fun h a => ⟨h.1 a, h.2 a⟩, fun h => ⟨fun a => (h a).mp, fun a => (h a).mpr⟩⟩

end TclAtlas.Distinct
