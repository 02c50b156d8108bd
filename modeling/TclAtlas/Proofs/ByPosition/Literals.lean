import TclAtlas.DictLiteral
import TclAtlas.Proofs.ByPosition.Words
import TclAtlas.Proofs.Text.Trimming

/-!
# Proofs/ByPosition/Literals — dictionary literals cut out by position

What a literal holds is cut out of its bracket group behind the word `create`.  The position of that
word is one within the group, and not within the text that the group was cut from.  A value that is
a literal again is cut in the same way, so all that is cut is part of the outermost text, and has
positions enough (`ByPosition.entries_eq`).
-/

namespace TclAtlas

/-! ## What is held is part of the text -/

namespace DictLiteral

theorem sublist_of_body? {t inner : Text} (h : body? t = some inner) : inner.Sublist t := by
  obtain ⟨group, hgroup, h⟩ := Option.bind_eq_some_iff.mp h
  split at h
  · obtain rfl := Option.some.inj (Option.ite_none_right_eq_some.mp h).2
    exact (Text.dropBytes_sublist _ _).trans
      ((Delimiter.sublist_of_content? hgroup).trans (Text.trim_sublist t))
  · exact absurd h (by simp)

theorem mem_or_nil_of_mem_pairs : ∀ {ws : List Text} {k v : Text}, (k, v) ∈ pairs ws →
    v ∈ ws ∨ v = []
  | [], _, _, h => absurd h List.not_mem_nil
  | [_], _, _, h => Or.inr (Prod.mk.inj (List.mem_singleton.mp h)).2
  | _ :: _ :: _, _, _, h => by
    rcases List.mem_cons.mp h with h | h
    · simp [(Prod.mk.inj h).2]
    · exact (mem_or_nil_of_mem_pairs h).imp_left fun hv => by simp [hv]

theorem sublist_of_mem_bodyPairs {body k v : Text} (h : (k, v) ∈ entriesWithin.bodyPairs body) :
    v.Sublist body := by
  obtain ⟨⟨w, v'⟩, hpair, h⟩ := List.mem_filterMap.mp h
  obtain ⟨k', -, hkv⟩ := Option.map_eq_some_iff.mp h
  obtain ⟨-, rfl⟩ := Prod.mk.inj hkv
  rcases mem_or_nil_of_mem_pairs hpair with hv | rfl
  · obtain ⟨w, hw, rfl⟩ := List.mem_map.mp hv
    exact ByPosition.sublist_of_mem_splitWords hw
  · exact List.nil_sublist body

end DictLiteral

namespace ByPosition

open DictLiteral

/-- A word read as an identifier, its wrapping taken off. -/
def identifier? (w : Text) : Except Failure (Option Text) := do
  let name ← unwrap w
  return if Text.isIdentifier name then some name else none

/-- **What a literal holds**, if the text is one. -/
def body? (t : Text) : Except Failure (Option Text) := do
  match ← content? .bracket (Text.trim t) with
  | none => return none
  | some inner =>
    match ← splitWords inner with
    | first :: second :: _ =>
      if first.text = dictWord ∧ second.text = createWord then
        return some (← cut inner second.finish (Text.byteLength inner))
      else return none
    | _ => return none

/-- The pairs of a body whose key is an identifier. -/
def bodyPairs (body : Text) : Except Failure (List (Text × Text)) := do
  let words ← splitWords body
  let keyed ← (pairs (words.map Word.text)).mapM fun (k, v) => do
    return (← identifier? k).map (·, v)
  return keyed.filterMap id

/-- The entries of a literal's body, opening values down to the given number of levels. -/
def entriesWithin : Nat → Text → Except Failure (List DictEntry)
  | 0, body => return (← bodyPairs body).map fun (k, v) => .plain k v
  | levels + 1, body => do
    (← bodyPairs body).mapM fun (k, v) => do
      match ← body? v with
      | some inner => return .nested k v (← entriesWithin levels inner)
      | none => return .plain k v

/-- **The entries of a literal's body.** -/
def entries (body : Text) : Except Failure (List DictEntry) := entriesWithin maxNesting body

/-! ## Literals are read without fail -/

theorem identifier?_eq (w : Text) : identifier? w = pure (Text.identifier? w) := by
  rw [identifier?, unwrap_eq, pure_bind]
  rfl

theorem body?_eq {t : Text} (ht : Addressable t) : body? t = pure (DictLiteral.body? t) := by
  have htrim : Addressable (Text.trim t) := ht.sublist (Text.trim_sublist t)
  rw [body?, content?_eq .bracket htrim, pure_bind, DictLiteral.body?]
  rcases hinner : Delimiter.bracket.content? (Text.trim t) with _ | inner
  · rfl
  have hin : Addressable inner := htrim.sublist (Delimiter.sublist_of_content? hinner)
  rw [Option.bind_eq_bind, Option.bind_some]
  simp only
  rw [splitWords_eq hin, pure_bind]
  rcases hwords : TclAtlas.splitWords inner with _ | ⟨first, _ | ⟨second, others⟩⟩
  · rfl
  · rfl
  simp only
  split
  · rw [cut_behind_word (w := second) (by simp [hwords])]
    rfl
  · rfl

theorem bodyPairs_eq {body : Text} (hb : Addressable body) :
    bodyPairs body = pure (DictLiteral.entriesWithin.bodyPairs body) := by
  have hkeyed : (pairs ((TclAtlas.splitWords body).map Word.text)).mapM
      (fun (k, v) => do return (← identifier? k).map (·, v)) =
        pure ((pairs ((TclAtlas.splitWords body).map Word.text)).map fun (k, v) =>
          (Text.identifier? k).map (·, v)) :=
    mapM_eq_pure fun (k, v) _ => by simp only [identifier?_eq, pure_bind]
  rw [bodyPairs, splitWords_eq hb, pure_bind]
  simp only [hkeyed, pure_bind, List.filterMap_map, Function.id_comp]
  rfl

/-- **The entries of a body** are all found, whatever is nested in its values. -/
theorem entriesWithin_eq : ∀ (levels : Nat) {body : Text}, Addressable body →
    entriesWithin levels body = pure (DictLiteral.entriesWithin levels body)
  | 0, body, hb => by rw [entriesWithin, bodyPairs_eq hb]; rfl
  | levels + 1, body, hb => by
    rw [entriesWithin, bodyPairs_eq hb, pure_bind, DictLiteral.entriesWithin]
    refine mapM_eq_pure fun (k, v) hkv => ?_
    have hv : Addressable v := hb.sublist (sublist_of_mem_bodyPairs hkv)
    simp only [body?_eq hv, pure_bind]
    rcases hinner : DictLiteral.body? v with _ | inner
    · rfl
    · simp only [entriesWithin_eq levels (hv.sublist (sublist_of_body? hinner)), pure_bind]

/-- **A literal is read without fail**, down to the literals nested in it. -/
theorem entries_eq {body : Text} (hb : Addressable body) :
    entries body = pure (DictLiteral.entries body) := entriesWithin_eq maxNesting hb

end ByPosition

end TclAtlas
