import TclAtlas.Text.Basic

/-!
# Name — names and the namespaces in front of them

A name may be **qualified**: segments joined by double colons, as in `outer::inner::draw`.  Leading
double colons anchor it at the root namespace and are no part of the segments.  The last double
colon separates the owning namespace from the **simple name**.
-/

namespace TclAtlas

namespace Name

/-- The separator of the segments of a name. -/
def separator : Text := [':', ':']

/-- Whether a name starts with the separator. -/
def isAnchored (n : Text) : Bool := separator.isPrefixOf n

/-- **A name without its root anchor**: one leading separator is dropped. -/
def unanchored (n : Text) : Text := if isAnchored n then n.drop 2 else n

/-- What stands before and after the last separator of a name. -/
def splitLast? : Text → Option (Text × Text)
  | [] => none
  | c :: t =>
    match splitLast? t with
    | some (before, after) => some (c :: before, after)
    | none =>
      match t with
      | [] => none
      | d :: t => if c = ':' ∧ d = ':' then some ([], t) else none

/-- Whether a name holds a separator. -/
def isQualified (n : Text) : Bool := (splitLast? n).isSome

/-- A namespace as a name in front of others: without its anchor, and `none` for the root. -/
def asNamespace (n : Text) : Option Text :=
  match unanchored n with
  | [] => none
  | ns => some ns

/-- **The owning namespace and the simple name** of a possibly qualified name. -/
def split (n : Text) : Option Text × Text :=
  match splitLast? n with
  | some (before, after) => (asNamespace before, after)
  | none => (none, n)

/-- The last segment of a name. -/
def simple (n : Text) : Text := (split n).2

/-- The name of a member of a namespace. -/
def join (ns : Text) (n : Text) : Text := ns ++ separator ++ n

/-- The name of a member of a namespace, or of the root. -/
def qualify : Option Text → Text → Text
  | none, n => n
  | some ns, n => join ns n

/-- **The two parts of a split name make it up**, with the separator between them. -/
theorem join_of_splitLast? : ∀ {n before after : Text}, splitLast? n = some (before, after) →
    join before after = n
  | [], _, _, h => by simp [splitLast?] at h
  | c :: t, before, after, h => by
    unfold splitLast? at h
    split at h
    · next b a hb =>
      obtain ⟨rfl, rfl⟩ : c :: b = before ∧ a = after := by simpa using h
      simp [join, ← join_of_splitLast? hb]
    · split at h
      · simp at h
      · split at h
        · next hc =>
          obtain ⟨rfl, rfl⟩ : [] = before ∧ _ = after := by simpa using h
          simp [join, separator, hc.1, hc.2]
        · simp at h

end Name

end TclAtlas
