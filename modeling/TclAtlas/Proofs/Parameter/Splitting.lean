import TclAtlas.Proofs.Parameter.Cutting

/-!
# Proofs/Parameter/Splitting — reading a parameter list loses and invents nothing

Every specifier of a list stands for one parameter that keeps it as its raw text, except for void
groups, which stand for none (`map_raw_filterMap`).  The parameters so read are well formed, and
their raw texts in a row are read as the same parameters again (`parseList_faithful`).
-/

namespace TclAtlas

namespace Text

theorem isBlank_of_trim {t s : Text} {c : Char} (h : trim t = c :: s) : isBlank c = false := by
  have hhead := List.head?_dropWhile_not isBlank (trimEnd t)
  rw [show (trimEnd t).dropWhile isBlank = c :: s from (trimEnd_trimStart t).symm.trans h] at hhead
  exact hhead

/-- Only blank texts are trimmed to nothing. -/
theorem trim_eq_nil_iff {t : Text} : trim t = [] ↔ ∀ c ∈ t, isBlank c = true := by
  refine ⟨fun h => ?_, fun h => ?_⟩
  · have hend : trimStart (trimEnd t) = [] := (trimEnd_trimStart t).symm.trans h
    have hall := List.dropWhile_eq_nil_iff.mp hend
    rw [← trimEnd_eq_nil_iff, ← trimEnd_trimEnd]
    exact trimEnd_eq_nil_iff.mpr hall
  · rw [trim, trimStart, List.dropWhile_eq_nil_iff.mpr h]
    rfl

/-- What stands before the first blank has no blank. -/
theorem isBlank_of_mem_splitAtBlank : ∀ {t : Text}, ∀ c ∈ (splitAtBlank t).1, isBlank c = false
  | [], c, hc => by simp [splitAtBlank] at hc
  | d :: t, c, hc => by
    rw [splitAtBlank] at hc
    split at hc
    · simp at hc
    · next hd =>
      rcases List.mem_cons.mp hc with rfl | hc
      · simpa using hd
      · exact isBlank_of_mem_splitAtBlank c hc

/-- A text is split at the first blank after characters that are none. -/
theorem splitAtBlank_append {c : Char} (hc : isBlank c = true) (t : Text) : ∀ {s : Text},
    (∀ d ∈ s, isBlank d = false) → splitAtBlank (s ++ c :: t) = (s, some t)
  | [], _ => by simp [splitAtBlank, hc]
  | d :: s, h => by
    obtain ⟨hd, hs⟩ := List.forall_mem_cons.mp h
    simp [splitAtBlank, hd, splitAtBlank_append hc t hs]

theorem isSolid_splitAtBlank {c : Char} (hc : isBlank c = false) (t : Text) :
    IsSolid (splitAtBlank (c :: t)).1 :=
  ⟨by simp [splitAtBlank, hc], isBlank_of_mem_splitAtBlank⟩

end Text

namespace Parameter

/-! ## One specifier -/

/-- **A void group**: after its opening brace there are only blanks, but for a closing brace at the
end. -/
def isVoid : Text → Bool
  | '{' :: t => (dropClose t).all Text.isBlank
  | _ => false

/-- **What is read off a specifier**: a name without blanks, a default that is trimmed and not
empty, and for a specifier that is no group the name alone. -/
structure WellFormed (p : Parameter) : Prop where
  name_solid : Text.IsSolid p.name
  default_trimmed : ∀ d ∈ p.default, d ≠ [] ∧ Text.trim d = d
  plain : isGroup p.raw = false → p.name = p.raw ∧ p.default = none

theorem ofSpecifier?_of_plain {s : Text} (h : isGroup s = false) :
    ofSpecifier? s = some (required s) := by
  unfold ofSpecifier?
  split
  · exact absurd h (by simp [isGroup])
  · rfl

theorem eq_cons_of_isGroup {s : Text} (h : isGroup s = true) : ∃ t, s = '{' :: t :=
  List.head?_eq_some_iff.mp (eq_of_beq h)

/-- **The parameter of a group** that is not blank. -/
theorem ofGroup?_of_trim {content t : Text} {c : Char} (h : Text.trim content = c :: t)
    (raw : Text) : ofGroup? raw content = some ⟨(Text.splitAtBlank (c :: t)).1,
      ((Text.splitAtBlank (c :: t)).2.map Text.trim).filter (· ≠ []), raw⟩ := by
  rw [ofGroup?, h]
  rcases hsplit : Text.splitAtBlank (c :: t) with ⟨name, _ | after⟩
  · simp [hsplit]
  · rcases hafter : Text.trim after with _ | ⟨d, ds⟩ <;>
      simp [hsplit, hafter, Option.filter]

theorem ofGroup?_eq_none_iff {raw content : Text} :
    ofGroup? raw content = none ↔ content.all Text.isBlank = true := by
  rw [List.all_eq_true, ← Text.trim_eq_nil_iff]
  rcases htrim : Text.trim content with _ | ⟨c, t⟩
  · simp [ofGroup?, htrim]
  · simp [ofGroup?_of_trim htrim]

/-- **A specifier stands for no parameter exactly when it is a void group.** -/
theorem ofSpecifier?_eq_none_iff {s : Text} : ofSpecifier? s = none ↔ isVoid s = true := by
  unfold ofSpecifier? isVoid
  split
  · exact ofGroup?_eq_none_iff
  · simp

theorem of_ofGroup? {raw content : Text} {p : Parameter} (h : ofGroup? raw content = some p) :
    p.raw = raw ∧ Text.IsSolid p.name ∧ ∀ d ∈ p.default, d ≠ [] ∧ Text.trim d = d := by
  rcases htrim : Text.trim content with _ | ⟨c, t⟩
  · simp [ofGroup?, htrim] at h
  · rw [ofGroup?_of_trim htrim] at h
    obtain rfl := Option.some.inj h
    refine ⟨rfl, Text.isSolid_splitAtBlank (Text.isBlank_of_trim htrim) t, fun d hd => ?_⟩
    obtain ⟨hd, hne⟩ := Option.mem_filter_iff.mp hd
    obtain ⟨after, -, rfl⟩ := Option.map_eq_some_iff.mp hd
    exact ⟨of_decide_eq_true hne, Text.trim_trim after⟩

theorem raw_of_ofSpecifier? {s : Text} {p : Parameter} (h : ofSpecifier? s = some p) :
    p.raw = s := by
  unfold ofSpecifier? at h
  split at h
  · exact (of_ofGroup? h).1
  · obtain rfl := Option.some.inj h
    rfl

/-- A specifier that is a group, or else a solid text, stands for a well-formed parameter. -/
theorem wellFormed_of_ofSpecifier? {s : Text} {p : Parameter} (h : ofSpecifier? s = some p)
    (hs : isGroup s = false → Text.IsSolid s) : p.WellFormed := by
  by_cases hgroup : isGroup s = true
  · obtain ⟨t, rfl⟩ := eq_cons_of_isGroup hgroup
    obtain ⟨hraw, hname, hdefault⟩ := of_ofGroup? h
    exact ⟨hname, hdefault, fun hplain => absurd (hraw ▸ hgroup) (by simp [hplain])⟩
  · have hgroup : isGroup s = false := by simpa using hgroup
    rw [ofSpecifier?_of_plain hgroup] at h
    obtain rfl := Option.some.inj h
    exact ⟨hs hgroup, by simp [required], fun _ => ⟨rfl, rfl⟩⟩

/-! ## All specifiers of a list -/

/-- **Every specifier is the raw text of one parameter**, void groups left out. -/
theorem map_raw_filterMap (ss : List Text) :
    (ss.filterMap ofSpecifier?).map raw = ss.filter (!isVoid ·) := by
  induction ss with
  | nil => rfl
  | cons s ss ih =>
    rw [List.filterMap_cons, List.filter_cons]
    cases hs : ofSpecifier? s with
    | none => simp [ofSpecifier?_eq_none_iff.mp hs, ih]
    | some p =>
      have hvoid : isVoid s = false := by
        rw [Bool.eq_false_iff, ne_eq, ← ofSpecifier?_eq_none_iff, hs]
        simp
      simp [hvoid, raw_of_ofSpecifier? hs, ih]

/-- Void groups may be left out before reading. -/
theorem filterMap_filter_isVoid (ss : List Text) :
    (ss.filter (!isVoid ·)).filterMap ofSpecifier? = ss.filterMap ofSpecifier? := by
  rw [List.filterMap_filter]
  refine List.filterMap_congr fun s _ => ?_
  cases hs : isVoid s with
  | true => simp [ofSpecifier?_eq_none_iff.mpr hs]
  | false => simp

/-- **Reading a parameter list loses and invents nothing.**  The pieces of the list can be cut into
consecutive parts such that the raw texts of the parameters are the parts put in a row with single
spaces, void groups left out.  All parameters are well formed, and their raw texts in a row are read
as the same parameters. -/
theorem parseList_faithful (list : Text) :
    (∃ gs : List (List Text), gs.flatten = Text.pieces list ∧ (∀ g ∈ gs, g ≠ []) ∧
      (parseList list).map raw = (gs.map [' '].intercalate).filter (!isVoid ·)) ∧
      (∀ p ∈ parseList list, p.WellFormed) ∧
      parseList ([' '].intercalate ((parseList list).map raw)) = parseList list := by
  obtain ⟨gs, hcut, hflat, hsolid, hspecs⟩ := exists_cut_specifiers list
  have hraw : (parseList list).map raw = (gs.map [' '].intercalate).filter (!isVoid ·) := by
    rw [parseList, map_raw_filterMap, hspecs]
  refine ⟨⟨gs, hflat, hcut.ne_nil, hraw⟩, fun p hp => ?_, ?_⟩
  · rw [parseList, hspecs] at hp
    obtain ⟨s, hs, hp⟩ := List.mem_filterMap.mp hp
    obtain ⟨g, hg, rfl⟩ := List.mem_map.mp hs
    exact wellFormed_of_ofSpecifier? hp (hcut.isSolid_of_plain hsolid hg)
  · have hrow : specifiers ([' '].intercalate ((parseList list).map raw)) =
        (specifiers list).filter (!isVoid ·) := by
      rw [hraw, hspecs, List.filter_map]
      exact (hcut.filter _).specifiers_intercalate fun g hg => hsolid g (List.mem_filter.mp hg).1
    rw [parseList, hrow, filterMap_filter_isVoid]
    rfl

/-- A void group is left out, also one of two pieces, and the last group may be unclosed. -/
example :
    let list := "a \x7b \x7d \x7bb 1\x7d \x7bc".toList
    specifiers list =
        ["a".toList, "\x7b \x7d".toList, "\x7bb 1\x7d".toList, "\x7bc".toList] ∧
      (parseList list).map raw = ["a".toList, "\x7bb 1\x7d".toList, "\x7bc".toList] := by
  decide

end Parameter

end TclAtlas
