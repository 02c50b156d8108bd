import TclAtlas.Proofs.ByPosition.Cutting
import TclAtlas.Proofs.Name.Parts
import TclAtlas.Proofs.Reference.Occurrences

/-!
# Proofs/ByPosition/Names — names cut out by position

A qualified name is cut before and behind its last separator.  The references of a run of ordinary
characters are cut out one by one: the search for the next dollar sign starts behind the name of the
last reference, and counts the bytes it has passed over (`ByPosition.nextInRun?`).  Where a
reference is found, it ends within its line, so that both of its ends are positions
(`ByPosition.references_eq`).
-/

namespace TclAtlas.ByPosition

open Text (byteLength)

/-! ## Qualified names -/

/-- Where the last separator of a name starts. -/
def lastSeparator? : Text → Option Nat
  | [] => none
  | c :: t =>
    match lastSeparator? t with
    | some n => some (c.utf8Size + n)
    | none => if Name.separator <+: c :: t then some 0 else none

/-- **The owning namespace and the simple name.** -/
def split (n : Text) : Except Failure (Option Text × Text) :=
  match lastSeparator? n with
  | none => return (none, n)
  | some i => do
    let before ← cut n 0 i
    let after ← cut n (i + byteLength Name.separator) (byteLength n)
    return (Name.asNamespace before, after)

/-- **The definition of a name as written.** -/
def definition? (kind : DefinitionKind) (written : Text) (params : List Parameter)
    (enclosing : Option Text) (location : Location) : Except Failure (Option Definition) := do
  let (owner, name) ←
    if Name.isQualified written then split written
    else pure (enclosing.bind Name.asNamespace, written)
  return if name = [] then none
    else some ⟨kind, name, params, owner, location, Name.isAnchored written⟩

/-- **The last separator starts** where the part before it ends. -/
theorem lastSeparator?_eq : ∀ n : Text,
    lastSeparator? n = (Name.splitLast? n).map fun parts => byteLength parts.1
  | [] => rfl
  | c :: t => by
    rw [lastSeparator?, lastSeparator?_eq t, Name.splitLast?_cons]
    rcases Name.splitLast? t with _ | ⟨before, after⟩
    · simp only [Option.map_none]
      split <;> rfl
    · rfl

theorem split_eq (n : Text) : split n = pure (Name.split n) := by
  rw [split, lastSeparator?_eq, Name.split]
  rcases hn : Name.splitLast? n with _ | ⟨before, after⟩
  · rfl
  obtain rfl := Name.join_of_splitLast? hn
  have hbefore : cut (Name.join before after) 0 (byteLength before) = pure before := by
    rw [Name.join, List.append_assoc]
    exact cut_upTo ..
  have hafter : cut (Name.join before after) (byteLength before + byteLength Name.separator)
      (byteLength (Name.join before after)) = pure after := by
    rw [← Text.byteLength_append]
    exact cut_from ..
  simp only [Option.map_some, hbefore, hafter, pure_bind]

theorem definition?_eq (kind : DefinitionKind) (written : Text) (params : List Parameter)
    (enclosing : Option Text) (location : Location) :
    definition? kind written params enclosing location =
      pure (Definition.make? kind written params enclosing location) := by
  rw [definition?, Definition.make?]
  split
  · rw [split_eq, pure_bind]
  · rw [pure_bind]

/-! ## References -/

/-- Where a character stands first. -/
def indexOf? (c : Char) : Text → Option Nat
  | [] => none
  | d :: t => if d = c then some 0 else (indexOf? c t).map (d.utf8Size + ·)

/-- The length of the name at the start of a text, anchor included. -/
def nameLength (t : Text) : Except Failure Nat := do
  let body := Name.unanchored t
  let anchor ← lower (byteLength t) (byteLength body)
  match Reference.plainName body with
  | [] => return 0
  | n => return anchor + byteLength n

/-- **A reference**: both of its ends must be positions. -/
def reference (name : Text) (start length : Nat) : Except Failure Reference :=
  let finish := kept start + (kept length + 1)
  if finish < positionLimit then pure ⟨name, kept start⟩ else throw (.pastLimit finish)

/-- The reference at a dollar sign, for the text after it and the length of the name there. -/
def referenceAt (after : Text) (start length : Nat) : Except Failure (List Reference) :=
  if 0 < length then do
    return [← reference (← cut after 0 length) start length]
  else return []

/-- **A step of the search** in a run of ordinary characters that starts at `base`: from what is
left of the run behind the bytes passed over, the reference at the next dollar sign, if it is one,
and what is left behind it. -/
def nextInRun? (base passed : Nat) (left : Text) :
    Except Failure (Option (List Reference × Nat × Text)) :=
  match indexOf? '$' left with
  | none => return none
  | some dollar => do
    let after ← cut left (dollar + 1) (byteLength left)
    let length ← nameLength after
    let found ← referenceAt after (base + passed + dollar) length
    let later ← cut after length (byteLength after)
    return some (found, passed + (dollar + 1 + length), later)

/-- Less is left of a run after each step. -/
theorem length_lt_of_nextInRun? {base passed passed' : Nat} {left later : Text}
    {found : List Reference}
    (h : nextInRun? base passed left = .ok (some (found, passed', later))) :
    later.length < left.length := by
  rw [nextInRun?] at h
  split at h
  · exact absurd h (by simp [pure, Except.pure])
  · obtain ⟨after, hafter, h⟩ := bind_eq_ok_iff.mp h
    obtain ⟨length, -, h⟩ := bind_eq_ok_iff.mp h
    obtain ⟨found', -, h⟩ := bind_eq_ok_iff.mp h
    obtain ⟨later', hlater, h⟩ := bind_eq_ok_iff.mp h
    obtain ⟨-, -, rfl⟩ : found' = found ∧ _ = passed' ∧ later' = later := by
      simpa [pure, Except.pure] using h
    obtain ⟨passedOver, behind, rfl, hlength, -⟩ := cut_eq_ok_iff.mp hafter
    obtain ⟨name, behind', rfl, -⟩ := cut_eq_ok_iff.mp hlater
    have hne : passedOver ≠ [] := by
      rintro rfl
      simp at hlength
    have := List.length_pos_of_ne_nil hne
    simp only [List.length_append]
    omega

/-- **The references in a run**, from what is left of it on. -/
def inRun (base passed : Nat) (left : Text) : Except Failure (List Reference) :=
  match _hstep : nextInRun? base passed left with
  | .error e => throw e
  | .ok none => return []
  | .ok (some (found, passed', later)) => return found ++ (← inRun base passed' later)
termination_by left.length
decreasing_by exact length_lt_of_nextInRun? _hstep

/-- One step of the search, and then the others. -/
theorem inRun_step (base passed : Nat) (left : Text) : inRun base passed left = (do
    match ← nextInRun? base passed left with
    | none => return []
    | some (found, passed', later) => return found ++ (← inRun base passed' later)) := by
  rw [inRun]
  split <;> simp only [*] <;> rfl

/-- **The variable substitutions of a line.** -/
def references (line : Text) : Except Failure (List Reference) := do
  let found ← (tokenize line).mapM fun k =>
    if k.kind = .text then inRun (kept k.start) 0 k.text else pure []
  return found.flatten

/-! ## References are found without fail -/

theorem indexOf?_eq_none {c : Char} : ∀ {t : Text}, c ∉ t → indexOf? c t = none
  | [], _ => rfl
  | d :: t, h => by
    obtain ⟨hd, ht⟩ : ¬ c = d ∧ c ∉ t := by simpa using h
    rw [indexOf?, if_neg (Ne.symm hd), indexOf?_eq_none ht]
    rfl

theorem indexOf?_append {c : Char} {t : Text} : ∀ {s : Text}, c ∉ s →
    indexOf? c (s ++ c :: t) = some (byteLength s)
  | [], _ => if_pos rfl
  | d :: s, h => by
    obtain ⟨hd, hs⟩ : ¬ c = d ∧ c ∉ s := by simpa using h
    rw [List.cons_append, indexOf?, if_neg (Ne.symm hd), indexOf?_append hs]
    rfl

theorem nameLength_eq (t : Text) : nameLength t = pure (byteLength (Reference.leadingName t)) := by
  rw [nameLength]
  by_cases hanchored : Name.isAnchored t = true
  · obtain ⟨u, rfl⟩ := Name.isAnchored_iff.mp hanchored
    have hbody : Name.unanchored (Name.separator ++ u) = u := if_pos hanchored
    have hname : Reference.leadingName (Name.separator ++ u) =
        match Reference.plainName u with
        | [] => []
        | n => Name.separator ++ n := rfl
    have hlower : lower (byteLength (Name.separator ++ u)) (byteLength u) =
        pure (byteLength Name.separator) := by
      rw [Text.byteLength_append, lower_of_le (Nat.le_add_left ..), Nat.add_sub_cancel]
    rw [hbody, hlower, hname, pure_bind]
    rcases Reference.plainName u with _ | ⟨c, n⟩
    · rfl
    · simp only [Text.byteLength_append]
  · have hbody : Name.unanchored t = t := if_neg hanchored
    have hname : Reference.leadingName t = Reference.plainName t := by
      rw [Reference.leadingName.eq_def]
      split
      · exact absurd rfl hanchored
      · rfl
    rw [hbody, hname, lower_of_le Nat.le.refl, Nat.sub_self, pure_bind]
    rcases Reference.plainName t with _ | ⟨c, n⟩
    · rfl
    · simp only [Nat.zero_add]

theorem reference_eq {name : Text} {start : Nat}
    (h : start + (byteLength name + 1) < positionLimit) :
    reference name start (byteLength name) = pure ⟨name, start⟩ := by
  have hstart : kept start = start := kept_of_lt (by omega)
  have hlength : kept (byteLength name) = byteLength name := kept_of_lt (by omega)
  rw [reference, hstart, hlength]
  exact if_pos h

/-- What is cut from behind a dollar sign is a reference if a name is. -/
theorem referenceAt_eq {name after : Text} {start : Nat}
    (h : start + (byteLength name + 1) < positionLimit) :
    referenceAt (name ++ after) start (byteLength name) =
      pure (if name = [] then [] else [⟨name, start⟩]) := by
  rw [referenceAt]
  rcases name with _ | ⟨c, name⟩
  · rfl
  · have hpos : 0 < byteLength (c :: name) := Nat.add_pos_left c.utf8Size_pos _
    rw [if_pos hpos, cut_upTo, pure_bind, reference_eq h]
    rfl

/-- **A step of the search** finds what stands at the next dollar sign. -/
theorem nextInRun?_append (base passed : Nat) {before name after : Text} (h : '$' ∉ before)
    (hname : Reference.leadingName (name ++ after) = name)
    (hlimit : base + passed + byteLength (before ++ '$' :: name) < positionLimit) :
    nextInRun? base passed (before ++ '$' :: (name ++ after)) =
      pure (some (if name = [] then [] else [⟨name, base + passed + byteLength before⟩],
        passed + byteLength (before ++ '$' :: name), after)) := by
  have hdollar : byteLength before + 1 = byteLength (before ++ ['$']) :=
    (Text.byteLength_append before ['$']).symm
  have hpassed : byteLength before + 1 + byteLength name = byteLength (before ++ '$' :: name) := by
    rw [hdollar, ← Text.byteLength_append, List.append_assoc, List.singleton_append]
  have hbehind : cut (before ++ '$' :: (name ++ after)) (byteLength before + 1)
      (byteLength (before ++ '$' :: (name ++ after))) = pure (name ++ after) := by
    rw [hdollar, ← List.singleton_append, ← List.append_assoc, cut_from]
  have hfound : referenceAt (name ++ after) (base + passed + byteLength before) (byteLength name) =
      pure (if name = [] then [] else [⟨name, base + passed + byteLength before⟩]) :=
    referenceAt_eq (by omega)
  rw [nextInRun?, indexOf?_append h]
  simp only [hbehind, nameLength_eq, hname, hfound, cut_from, hpassed, pure_bind]

/-- **The references of a run** are all found, at positions that can be kept. -/
theorem inRun_eq (base : Nat) {passed : Nat} {left : Text}
    (hlimit : base + passed + byteLength left < positionLimit) :
    inRun base passed left = pure (Reference.inRun (base + passed) left) := by
  by_cases hdollar : '$' ∈ left
  · obtain ⟨before, rest, hleft, hbefore⟩ := List.eq_append_cons_of_mem hdollar
    obtain ⟨after, hafter⟩ := Reference.leadingName_isPrefix rest
    have hname : Reference.leadingName (Reference.leadingName rest ++ after) =
        Reference.leadingName rest := by rw [hafter]
    rw [← hafter] at hleft
    have hshorter : after.length < left.length := by
      rw [hleft]
      simp only [List.length_append, List.length_cons]
      omega
    have hlength : byteLength left =
        byteLength (before ++ '$' :: Reference.leadingName rest) + byteLength after := by
      rw [hleft, ← Text.byteLength_append, List.append_assoc, List.cons_append]
    have hstep := nextInRun?_append base passed hbefore hname (by omega)
    rw [← hleft] at hstep
    rw [inRun_step, hstep, pure_bind]
    simp only
    rw [inRun_eq base (by omega), hleft, Reference.inRun_append_dollar hbefore hname, pure_bind,
      Nat.add_assoc base passed (byteLength (before ++ _))]
  · rw [inRun_step, nextInRun?, indexOf?_eq_none hdollar, pure_bind]
    have hnone := Reference.inRun_append hdollar (base + passed) []
    rw [List.append_nil, Reference.inRun] at hnone
    rw [hnone]
termination_by left.length

/-- **Where a token starts and ends** can be kept. -/
theorem kept_tokenize {line : Text} (hline : Addressable line) {k : Token}
    (hk : k ∈ tokenize line) : kept k.start = k.start ∧ kept k.finish = k.finish :=
  kept_of_finish_le hline (Nat.le_add_right ..) (finish_le_of_mem_tokenize hk)

/-- **References are found without fail.** -/
theorem references_eq {line : Text} (hline : Addressable line) :
    references line = pure (TclAtlas.references line) := by
  have hfound : (tokenize line).mapM (fun k =>
      if k.kind = .text then inRun (kept k.start) 0 k.text else pure []) =
        pure ((tokenize line).map Reference.ofToken) := by
    refine mapM_eq_pure fun k hk => ?_
    have hlimit : k.finish < positionLimit :=
      Nat.lt_of_le_of_lt (finish_le_of_mem_tokenize hk) hline
    rw [Reference.ofToken]
    split
    · rw [(kept_tokenize hline hk).1, inRun_eq k.start hlimit, Nat.add_zero]
    · rfl
  rw [references, hfound, pure_bind]
  rfl

/-- **Where a reference starts and ends** can be kept. -/
theorem kept_references {line : Text} (hline : Addressable line) {r : Reference}
    (hr : r ∈ TclAtlas.references line) : kept r.start = r.start ∧ kept r.finish = r.finish := by
  obtain ⟨k, hk, hrk⟩ := List.mem_flatMap.mp hr
  have hstart : r.start ≤ r.finish := by
    rw [Reference.finish]
    omega
  exact kept_of_finish_le hline hstart
    ((Reference.bounds_of_mem_ofToken hrk).2.trans (finish_le_of_mem_tokenize hk))

end TclAtlas.ByPosition
