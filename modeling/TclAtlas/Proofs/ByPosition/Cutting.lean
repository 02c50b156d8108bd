import TclAtlas.Text.Basic
import Mathlib.Data.List.Basic

/-!
# Proofs/ByPosition/Cutting — texts cut at byte positions

Where texts are kept as bytes, parts of them are cut out by positions, and a cut **fails** where a
position lies past the end or within a character, or where the positions are out of order
(`Text.slice?_eq_some_iff`).  Positions are kept in 32 bits, which is enough for texts of less than
four gibibytes (`Addressable`).

The modules of this folder read scripts in this way.  Every step that could fail is made to say so
(`ByPosition.Failure`), and none ever does.
-/

namespace TclAtlas

/-! ## Slices of a text -/

namespace Text

/-- **A text cut in two** at a byte position, if the position is one between two characters. -/
def splitAt? : Nat → Text → Option (Text × Text)
  | 0, t => some ([], t)
  | _ + 1, [] => none
  | n + 1, c :: t =>
    if c.utf8Size ≤ n + 1 then (splitAt? (n + 1 - c.utf8Size) t).map fun (s, u) => (c :: s, u)
    else none

/-- **The part of a text between two byte positions.** -/
def slice? (t : Text) (start stop : Nat) : Option Text :=
  (splitAt? stop t).bind fun (upTo, _) => (splitAt? start upTo).map Prod.snd

theorem splitAt?_append : ∀ s u : Text, splitAt? (byteLength s) (s ++ u) = some (s, u)
  | [], _ => by rw [byteLength_nil, splitAt?]; rfl
  | c :: s, u => by
    obtain ⟨n, hn⟩ : ∃ n, c.utf8Size + byteLength s = n + 1 :=
      Nat.exists_eq_succ_of_ne_zero (by have := c.utf8Size_pos; omega)
    have hrest : n + 1 - c.utf8Size = byteLength s := by omega
    rw [byteLength_cons, List.cons_append, hn, splitAt?, if_pos (by omega), hrest,
      splitAt?_append s u]
    rfl

/-- **A text is cut in two** at the positions between its characters, and at no others. -/
theorem splitAt?_eq_some_iff {n : Nat} {t s u : Text} :
    splitAt? n t = some (s, u) ↔ t = s ++ u ∧ byteLength s = n := by
  constructor
  · intro h
    induction t generalizing n s with
    | nil =>
      rcases n with _ | n
      · obtain ⟨rfl, rfl⟩ : [] = s ∧ [] = u := by simpa [splitAt?] using h
        exact ⟨rfl, rfl⟩
      · exact absurd h (by simp [splitAt?])
    | cons c t ih =>
      rcases n with _ | n
      · obtain ⟨rfl, rfl⟩ : [] = s ∧ c :: t = u := by simpa [splitAt?] using h
        exact ⟨rfl, rfl⟩
      · rw [splitAt?] at h
        split at h
        · next hc =>
          obtain ⟨⟨s', u'⟩, hrest, heq⟩ := Option.map_eq_some_iff.mp h
          obtain ⟨rfl, rfl⟩ : c :: s' = s ∧ u' = u := by simpa using heq
          obtain ⟨rfl, hlength⟩ := ih hrest
          exact ⟨rfl, by rw [byteLength_cons]; omega⟩
        · exact absurd h (by simp)
  · rintro ⟨rfl, rfl⟩
    exact splitAt?_append s u

/-- **A slice is a part of the text** that stands between two positions, both of them between
characters. -/
theorem slice?_eq_some_iff {t s : Text} {start stop : Nat} : slice? t start stop = some s ↔
    ∃ before after, t = before ++ (s ++ after) ∧ byteLength before = start ∧
      stop = start + byteLength s := by
  constructor
  · intro h
    obtain ⟨⟨upTo, after⟩, hstop, h⟩ := Option.bind_eq_some_iff.mp h
    obtain ⟨⟨before, s'⟩, hstart, rfl⟩ := Option.map_eq_some_iff.mp h
    obtain ⟨rfl, rfl⟩ := splitAt?_eq_some_iff.mp hstop
    obtain ⟨rfl, rfl⟩ := splitAt?_eq_some_iff.mp hstart
    exact ⟨before, after, by simp, rfl, byteLength_append before s'⟩
  · rintro ⟨before, after, rfl, rfl, rfl⟩
    rw [slice?, ← byteLength_append, ← List.append_assoc, splitAt?_append, Option.bind_some]
    change (splitAt? (byteLength before) (before ++ s)).map Prod.snd = some s
    rw [splitAt?_append]
    rfl

/-- A text is at least as long as what is left of it when characters are taken out. -/
theorem byteLength_le_of_sublist {s t : Text} (h : s.Sublist t) : byteLength s ≤ byteLength t := by
  induction h with
  | slnil => exact Nat.le_refl 0
  | cons c _ ih => exact Nat.le_trans ih (Nat.le_add_left ..)
  | cons_cons c _ ih => exact Nat.add_le_add_left ih _

theorem dropBytes_sublist : ∀ (n : Nat) (t : Text), (dropBytes n t).Sublist t
  | _, [] => List.Sublist.refl []
  | n, c :: t => by
    rw [dropBytes]
    split
    · exact List.Sublist.refl _
    · exact (dropBytes_sublist _ t).cons c

end Text

/-! ## Steps that may fail -/

/-- How many positions there are. -/
def positionLimit : Nat := UInt32.size

/-- **A text all of whose positions can be kept.** -/
def Addressable (t : Text) : Prop := Text.byteLength t < positionLimit

instance (t : Text) : Decidable (Addressable t) :=
  inferInstanceAs (Decidable (Text.byteLength t < positionLimit))

theorem Addressable.sublist {s t : Text} (ht : Addressable t) (h : s.Sublist t) : Addressable s :=
  Nat.lt_of_le_of_lt (Text.byteLength_le_of_sublist h) ht

namespace ByPosition

/-- **Why a step fails.** -/
inductive Failure
  /-- The text has no part between the two positions. -/
  | noSlice (text : Text) (start stop : Nat)
  /-- A count would fall below zero. -/
  | belowZero
  /-- A position would not fit. -/
  | pastLimit (position : Nat)

/-- **A position as it is kept**: one past the limit would lose its upper part. -/
def kept (position : Nat) : Nat := position % positionLimit

theorem kept_of_lt {position : Nat} (h : position < positionLimit) : kept position = position :=
  Nat.mod_eq_of_lt h

/-- **What ends within an addressable text** starts and ends at positions that are kept. -/
theorem kept_of_finish_le {t : Text} (ht : Addressable t) {start finish : Nat}
    (hstart : start ≤ finish) (hfinish : finish ≤ Text.byteLength t) :
    kept start = start ∧ kept finish = finish :=
  have hlimit := Nat.lt_of_le_of_lt hfinish ht
  ⟨kept_of_lt (Nat.lt_of_le_of_lt hstart hlimit), kept_of_lt hlimit⟩

theorem kept_byteLength {t : Text} (ht : Addressable t) :
    kept (Text.byteLength t) = Text.byteLength t := kept_of_lt ht

/-- **Cut out a part of a text.** -/
def cut (t : Text) (start stop : Nat) : Except Failure Text :=
  match t.slice? start stop with
  | some s => pure s
  | none => throw (.noSlice t start stop)

/-- **Lower a count** by a number. -/
def lower (count number : Nat) : Except Failure Nat :=
  if number ≤ count then pure (count - number) else throw .belowZero

theorem lower_of_le {count number : Nat} (h : number ≤ count) :
    lower count number = pure (count - number) := if_pos h

/-- Steps one after the other succeed when each does. -/
theorem bind_eq_ok_iff {α β : Type} {x : Except Failure α} {f : α → Except Failure β} {b : β} :
    x >>= f = .ok b ↔ ∃ a, x = .ok a ∧ f a = .ok b := by
  cases x <;> simp [bind, Except.bind]

/-- **A cut succeeds** on the parts of the text. -/
theorem cut_eq_ok_iff {t s : Text} {start stop : Nat} : cut t start stop = .ok s ↔
    ∃ before after, t = before ++ (s ++ after) ∧ Text.byteLength before = start ∧
      stop = start + Text.byteLength s := by
  rw [← Text.slice?_eq_some_iff, cut]
  cases t.slice? start stop <;> simp [pure, Except.pure, throw, throwThe, MonadExceptOf.throw]

/-- A position within a character. -/
example : cut ['é', 'x'] 1 3 = .error (.noSlice ['é', 'x'] 1 3) := rfl

theorem cut_middle (before s after : Text) :
    cut (before ++ (s ++ after)) (Text.byteLength before)
      (Text.byteLength before + Text.byteLength s) = pure s :=
  cut_eq_ok_iff.mpr ⟨before, after, rfl, rfl, rfl⟩

/-- A part up to the end. -/
theorem cut_from (before s : Text) :
    cut (before ++ s) (Text.byteLength before) (Text.byteLength (before ++ s)) = pure s :=
  cut_eq_ok_iff.mpr ⟨before, [], by simp, rfl, Text.byteLength_append before s⟩

/-- A part from the start on. -/
theorem cut_upTo (s after : Text) : cut (s ++ after) 0 (Text.byteLength s) = pure s :=
  cut_eq_ok_iff.mpr ⟨[], after, rfl, rfl, (Nat.zero_add _).symm⟩

/-- **Steps taken for each member** of a list, none of which fails. -/
theorem mapM_eq_pure {α β : Type} {f : α → Except Failure β} {g : α → β} : ∀ {l : List α},
    (∀ a ∈ l, f a = pure (g a)) → l.mapM f = pure (l.map g)
  | [], _ => List.mapM_nil
  | a :: l, h => by
    rw [List.mapM_cons, h a List.mem_cons_self,
      mapM_eq_pure fun b hb => h b (List.mem_cons_of_mem a hb)]
    rfl

end ByPosition

end TclAtlas
