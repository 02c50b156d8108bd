import TclAtlas.Definition
import Mathlib.Data.List.Infix

/-!
# Proofs/Name/Parts — what the parts of a name can be

A name is qualified when a separator stands anywhere in it (`isQualified_iff`).  It is split at the
last one (`lastSegment_split`), so the simple name at its end is not qualified any more
(`isQualified_of_splitLast?`).
The namespace in front may still begin with a separator, as only one is taken off as an anchor.

So the parts of a definition's name are never empty, and its simple name is never qualified
(`Definition.WellNamed`).
-/

namespace TclAtlas

namespace Name

/-! ## Separators -/

/-- A name is split further back if it can be, and else at a separator in front. -/
theorem splitLast?_cons (c : Char) (t : Text) : splitLast? (c :: t) =
    match splitLast? t with
    | some (before, after) => some (c :: before, after)
    | none => if separator <+: c :: t then some ([], t.drop 1) else none := by
  rcases t with _ | ⟨d, t⟩
  · simp [splitLast?, separator]
  · rw [splitLast?.eq_def]
    simp only
    rcases splitLast? (d :: t) with _ | ⟨before, after⟩
    · simp [separator, eq_comm]
    · rfl

/-- **A name is qualified when a separator stands in it.** -/
theorem isQualified_iff : ∀ {n : Text}, isQualified n = true ↔ separator <:+: n
  | [] => by simp [isQualified, splitLast?, separator]
  | c :: t => by
    have ih : isQualified t = true ↔ separator <:+: t := isQualified_iff
    rw [List.infix_cons_iff, ← ih, isQualified, splitLast?_cons, isQualified]
    rcases splitLast? t with _ | ⟨before, after⟩ <;> simp

theorem isAnchored_iff {n : Text} : isAnchored n = true ↔ separator <+: n :=
  List.isPrefixOf_iff_prefix

/-- **An anchored name is qualified.** -/
theorem isQualified_of_isAnchored {n : Text} (h : isAnchored n = true) : isQualified n = true :=
  isQualified_iff.mpr (isAnchored_iff.mp h).isInfix

theorem isAnchored_of_not_isQualified {n : Text} (h : isQualified n = false) :
    isAnchored n = false :=
  Bool.eq_false_iff.mpr fun ha => absurd (isQualified_of_isAnchored ha) (by simp [h])

/-- **A member of a namespace has a qualified name.** -/
theorem isQualified_join (ns n : Text) : isQualified (join ns n) = true :=
  isQualified_iff.mpr ⟨ns, n, rfl⟩

/-- **What stands after the last separator** holds none. -/
theorem isQualified_of_splitLast? : ∀ {n before after : Text},
    splitLast? n = some (before, after) → isQualified after = false
  | [], _, _, h => absurd h (by simp [splitLast?])
  | c :: t, before, after, h => by
    rw [splitLast?_cons] at h
    rcases ht : splitLast? t with _ | ⟨before', after'⟩
    · rw [ht] at h
      obtain ⟨-, rfl⟩ : [] = before ∧ t.drop 1 = after := by
        simpa using (Option.ite_none_right_eq_some.mp h).2
      have hnone : ¬ separator <:+: t := by
        rw [← isQualified_iff, isQualified, ht]
        exact Bool.false_ne_true
      refine Bool.eq_false_iff.mpr fun hafter => hnone ?_
      exact (isQualified_iff.mp hafter).trans (List.drop_suffix 1 t).isInfix
    · rw [ht] at h
      obtain ⟨-, rfl⟩ : c :: before' = before ∧ after' = after := by simpa using h
      exact isQualified_of_splitLast? ht

/-- **A name is split at its last separator**: none stands further back. -/
theorem length_le_of_splitLast? : ∀ {n before after : Text}, splitLast? n = some (before, after) →
    ∀ {b a : Text}, n = join b a → b.length ≤ before.length
  | _, _, _, _, [], _, _ => Nat.zero_le _
  | [], _, _, _, _ :: _, _, hn => absurd hn (by simp [join])
  | c :: t, before, after, h, d :: b, a, hn => by
    obtain ⟨-, ht⟩ : c = d ∧ t = join b a := by simpa [join] using hn
    have hqualified : isQualified t = true := ht ▸ isQualified_join b a
    obtain ⟨⟨before', after'⟩, hsplit⟩ := Option.isSome_iff_exists.mp hqualified
    rw [splitLast?_cons, hsplit] at h
    obtain ⟨rfl, -⟩ : c :: before' = before ∧ after' = after := by simpa using h
    exact Nat.succ_le_succ (length_le_of_splitLast? hsplit ht)

/-- **The last segment of a name**: what stands after its last separator, or all of it if there is
none. -/
def LastSegment (n segment : Text) : Prop :=
  (¬ separator <:+: n ∧ segment = n) ∨
    ∃ before, n = join before segment ∧ ∀ b a, n = join b a → b.length ≤ before.length

theorem lastSegment_split (n : Text) : LastSegment n (split n).2 := by
  rw [split]
  rcases hn : splitLast? n with _ | ⟨before, after⟩
  · refine Or.inl ⟨fun h => ?_, rfl⟩
    have hqualified := isQualified_iff.mpr h
    simp [isQualified, hn] at hqualified
  · exact Or.inr ⟨before, (join_of_splitLast? hn).symm, fun _ _ => length_le_of_splitLast? hn⟩

/-! ## Anchors -/

theorem unanchored_of_not_isAnchored {n : Text} (h : isAnchored n = false) : unanchored n = n :=
  if_neg (by simp [h])

/-- **A name in front of others** is its unanchored form, unless nothing is left of it. -/
theorem asNamespace_eq_some_iff {n ns : Text} :
    asNamespace n = some ns ↔ unanchored n = ns ∧ ns ≠ [] := by
  rw [asNamespace]
  split
  · next h =>
    rw [h]
    constructor
    · intro hns
      exact absurd hns (by simp)
    · rintro ⟨rfl, hne⟩
      exact absurd rfl hne
  · next hne =>
    rw [Option.some.injEq, iff_self_and]
    rintro rfl
    exact hne

end Name

/-! ## The names of definitions -/

namespace Definition

/-- **The name of a definition has proper parts**: a simple name that is not empty and holds no
separator, and an owner that is not empty, if any. -/
structure WellNamed (d : Definition) : Prop where
  name_ne_nil : d.name ≠ []
  isQualified_name : Name.isQualified d.name = false
  owner_ne : d.owner ≠ some []

variable {kind : DefinitionKind} {written : Text} {params : List Parameter}
  {enclosing : Option Text} {location : Location} {d : Definition}

theorem location_of_make? (h : make? kind written params enclosing location = some d) :
    d.location = location := by
  rw [make?] at h
  split at h
  split at h
  · exact absurd h (by simp)
  · rw [← Option.some.inj h]

/-- **A definition is named** by the last segment of the name as written, and anchored as that
is. -/
theorem lastSegment_of_make? (h : make? kind written params enclosing location = some d) :
    Name.LastSegment written d.name ∧ d.anchored = Name.isAnchored written := by
  have hsegment := Name.lastSegment_split written
  rw [make?] at h
  split at h
  next owner name hparts =>
  split at h
  · exact absurd h (by simp)
  · have hname : name = (Name.split written).2 := by
      split at hparts
      · rw [hparts]
      · next hq =>
        obtain ⟨-, rfl⟩ := Prod.mk.inj hparts
        rw [Name.split, Option.not_isSome_iff_eq_none.mp hq]
    rw [← Option.some.inj h]
    exact ⟨hname ▸ hsegment, rfl⟩

/-- **A plain name** is the simple name of the definition, which belongs to the block around it. -/
theorem make?_of_not_isQualified (hwritten : Name.isQualified written = false) :
    make? kind written params enclosing location =
      if written = [] then none
      else some ⟨kind, written, params, enclosing.bind Name.asNamespace, location, false⟩ := by
  simp [make?, hwritten, Name.isAnchored_of_not_isQualified hwritten]

/-- **Whatever the name as written**, a definition is well named. -/
theorem wellNamed_of_make? (h : make? kind written params enclosing location = some d) :
    d.WellNamed := by
  have howner : ∀ n : Text, Name.asNamespace n ≠ some [] := fun n hn =>
    (Name.asNamespace_eq_some_iff.mp hn).2 rfl
  rcases hq : Name.isQualified written
  · rw [make?_of_not_isQualified hq] at h
    split at h
    · exact absurd h (by simp)
    · next hne =>
      obtain rfl := Option.some.inj h
      refine ⟨hne, hq, fun hnil => ?_⟩
      obtain ⟨n, -, hn⟩ := Option.bind_eq_some_iff.mp hnil
      exact howner n hn
  · obtain ⟨⟨before, after⟩, hsplit⟩ := Option.isSome_iff_exists.mp hq
    simp only [make?, hq, if_true, Name.split, hsplit] at h
    split at h
    · exact absurd h (by simp)
    · next hne =>
      obtain rfl := Option.some.inj h
      exact ⟨hne, Name.isQualified_of_splitLast? hsplit, howner before⟩

/-- **A definition has a qualified name exactly when it has an owner.** -/
theorem WellNamed.isQualified_qualifiedName (h : d.WellNamed) :
    Name.isQualified d.qualifiedName = !d.isGlobal := by
  rw [qualifiedName, isGlobal]
  rcases d.owner with _ | ns
  · exact h.isQualified_name
  · exact Name.isQualified_join ns d.name

/-- **A qualified name looks anchored** when the owner is still anchored, or is a single colon. -/
theorem WellNamed.isAnchored_qualifiedName_iff (h : d.WellNamed) :
    Name.isAnchored d.qualifiedName = true ↔
      ∃ ns, d.owner = some ns ∧ (Name.isAnchored ns = true ∨ ns = [':']) := by
  rw [qualifiedName, Name.isAnchored_iff]
  rcases howner : d.owner with _ | ns
  · have hname := Name.isAnchored_of_not_isQualified h.isQualified_name
    simp [Name.qualify, ← Name.isAnchored_iff, hname]
  · rcases ns with _ | ⟨a, _ | ⟨b, ns⟩⟩
    · exact absurd howner h.owner_ne
    · simp [Name.qualify, Name.join, Name.isAnchored_iff, Name.separator, @eq_comm _ ':']
    · simp [Name.qualify, Name.join, Name.isAnchored_iff, Name.separator]

/-- **A qualified name that looks anchored** is another name without the separator in front, and not
the simple name. -/
theorem WellNamed.unanchored_qualifiedName_ne (h : d.WellNamed)
    (hanchored : Name.isAnchored d.qualifiedName = true) :
    d.qualifiedName ≠ Name.unanchored d.qualifiedName ∧
      d.name ≠ Name.unanchored d.qualifiedName := by
  obtain ⟨ns, howner, -⟩ := h.isAnchored_qualifiedName_iff.mp hanchored
  have hne : ns ≠ [] := fun hnil => h.owner_ne (howner.trans (congrArg some hnil))
  have hpos : 0 < ns.length := List.length_pos_iff.mpr hne
  have hlength : d.qualifiedName.length = ns.length + 2 + d.name.length := by
    rw [qualifiedName, howner, Name.qualify, Name.join, List.length_append, List.length_append]
    rfl
  have hunanchored : (Name.unanchored d.qualifiedName).length = d.qualifiedName.length - 2 := by
    rw [Name.unanchored, if_pos hanchored, List.length_drop]
  constructor
  · intro heq
    have hshorter := congrArg List.length heq
    omega
  · intro heq
    have hshorter := congrArg List.length heq
    omega

end Definition

end TclAtlas
