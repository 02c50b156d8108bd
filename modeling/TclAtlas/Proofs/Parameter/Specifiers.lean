import TclAtlas.Proofs.Parameter.Splitting
import TclAtlas.Proofs.Word.Matching

/-!
# Proofs/Parameter/Specifiers — which parameter lists are read one parameter per specifier

A **specifier** is a plain name, or a name and a default in braces, where the default is a plain
word or a brace group.  A group that has begun is taken to end with the first piece that ends with a
closing brace, however many braces are open.  So no specifier that is read closes early, with a
closing brace right before a space (`not_closesEarly_raw`), and a row of specifiers is read one
parameter per specifier exactly when none of them closes early (`parseList_specifiers_iff`).
-/

namespace TclAtlas.Parameter

/-! ## Closing early -/

/-- **A text that closes early**: in it a closing brace stands right before a space. -/
def ClosesEarly (t : Text) : Prop := ['}', ' '] <:+: t

theorem closesEarly_cons {c : Char} {t : Text} :
    ClosesEarly (c :: t) ↔ c = '}' ∧ t.head? = some ' ' ∨ ClosesEarly t := by
  have hspace : [' '] <+: t ↔ t.head? = some ' ' := by cases t <;> simp [eq_comm]
  rw [ClosesEarly, List.infix_cons_iff, List.cons_prefix_cons, hspace, eq_comm, ClosesEarly]

instance decidableClosesEarly : ∀ t : Text, Decidable (ClosesEarly t)
  | [] => isFalse (by simp [ClosesEarly])
  | _ :: t =>
    have := decidableClosesEarly t
    decidable_of_iff _ closesEarly_cons.symm

theorem not_closesEarly_of_isSolid {p : Text} (hp : Text.IsSolid p) : ¬ClosesEarly p := fun h =>
  absurd (hp.2 ' ' (h.subset (by simp))) (by decide)

/-- After a text without blanks and a space, a closing brace stands before that space or further
on. -/
theorem closesEarly_append_iff {t : Text} : ∀ {p : Text}, (∀ c ∈ p, Text.isBlank c = false) →
    (ClosesEarly (p ++ ' ' :: t) ↔ isClosed p = true ∨ ClosesEarly t)
  | [], _ => by simp [closesEarly_cons, isClosed]
  | [c], _ => by simp [closesEarly_cons, isClosed]
  | c :: d :: p, h => by
    have hd : d ≠ ' ' := by
      rintro rfl
      exact absurd (h ' ' (by simp)) (by decide)
    have ih := closesEarly_append_iff (t := t) (List.forall_mem_cons.mp h).2
    rw [List.cons_append, closesEarly_cons, ih]
    simp [hd, isClosed]

/-- **A row closes early** exactly when a piece before the last is closed. -/
theorem closesEarly_intercalate_iff {p : Text} : ∀ {ps : List Text},
    (∀ q ∈ ps ++ [p], Text.IsSolid q) →
      (ClosesEarly ([' '].intercalate (ps ++ [p])) ↔ ∃ q ∈ ps, isClosed q = true)
  | [], h => by simpa using not_closesEarly_of_isSolid (h p (by simp))
  | q :: ps, h => by
    obtain ⟨hq, hps⟩ := List.forall_mem_cons.mp h
    rw [List.cons_append, List.intercalate_cons_of_ne_nil (by simp), List.append_assoc,
      List.singleton_append, closesEarly_append_iff hq.2, closesEarly_intercalate_iff hps,
      List.exists_mem_cons_iff]

/-- A group within a group closes early if something comes after it. -/
example : ClosesEarly "\x7b\x7ba\x7d b\x7d".toList ∧
    ¬ClosesEarly "\x7ba \x7bb\x7d\x7d".toList := by decide

/-! ## Groups -/

theorem closing_concat_iff {p : Text} : ∀ {ps : List Text},
    Closing (ps ++ [p]) ↔ (∀ q ∈ ps, isClosed q = false) ∧ isClosed p = true
  | [] => by
    refine ⟨fun h => ?_, fun h => .last h.2⟩
    cases h with
    | last hp => exact ⟨by simp, hp⟩
    | cons hp hps => cases hps
  | q :: ps => by
    rw [List.forall_mem_cons, and_assoc, ← closing_concat_iff]
    refine ⟨fun h => ?_, fun h => .cons h.1 h.2⟩
    generalize hrow : q :: ps ++ [p] = row at h
    cases h with
    | last hp => simp at hrow
    | cons hp hps =>
      obtain ⟨rfl, rfl⟩ := List.cons.inj hrow
      exact ⟨hp, hps⟩

/-- **No piece of a part but the last is closed.** -/
theorem Cut.isClosed_of_concat {gs : List (List Text)} (h : Cut gs) {ps : List Text} {p : Text}
    (hg : ps ++ [p] ∈ gs) : ∀ q ∈ ps, isClosed q = false := by
  induction h with
  | nil => simp at hg
  | plain hp hgs ih =>
    rcases List.mem_cons.mp hg with hg | hg
    · obtain rfl : ps = [] := by simpa using congrArg List.length hg
      simp
    · exact ih hg
  | group hp hps hgs ih =>
    rcases List.mem_cons.mp hg with hg | hg
    · exact (closing_concat_iff.mp (hg ▸ hps)).1
    · exact ih hg
  | unclosed hp hps =>
    have hg := List.mem_singleton.mp hg
    exact fun q hq => hps q (hg ▸ List.mem_append_left _ hq)

/-- **A group that does not close early is one part.** -/
theorem exists_closing {t : Text} (ht : Text.IsSingleSpaced t) (hgroup : isGroup t = true)
    (hclosed : isClosed t = true) (hearly : ¬ClosesEarly t) :
    ∃ p ps, Text.pieces t = p :: ps ∧ isGroup p = true ∧ Closing (p :: ps) := by
  have hne : t ≠ [] := by
    rintro rfl
    exact absurd hgroup (by decide)
  obtain ⟨ps, p, hsolid, rfl⟩ := ht.exists_concat hne
  rw [closesEarly_intercalate_iff hsolid] at hearly
  rw [Text.intercalate_concat, isClosed_append (hsolid p (by simp)).1] at hclosed
  have hclosing : Closing (ps ++ [p]) :=
    closing_concat_iff.mpr ⟨fun q hq => by simpa using fun h => hearly ⟨q, hq, h⟩, hclosed⟩
  rw [Text.pieces_intercalate hsolid]
  obtain ⟨q, qs, hrow⟩ := List.exists_cons_of_ne_nil (by simp : ps ++ [p] ≠ [])
  rw [hrow] at hgroup hsolid hclosing ⊢
  rw [isGroup_intercalate (hsolid q List.mem_cons_self).1] at hgroup
  exact ⟨q, qs, rfl, hgroup, hclosing⟩

/-- **No specifier that is read closes early.** -/
theorem not_closesEarly_raw {list : Text} {p : Parameter} (hp : p ∈ parseList list) :
    ¬ClosesEarly p.raw := by
  obtain ⟨gs, hcut, -, hsolid, hspecs⟩ := exists_cut_specifiers list
  obtain ⟨s, hs, hp⟩ := List.mem_filterMap.mp hp
  rw [raw_of_ofSpecifier? hp]
  obtain ⟨g, hg, rfl⟩ := List.mem_map.mp (hspecs ▸ hs)
  obtain ⟨ps, q, rfl⟩ := (List.eq_nil_or_concat' g).resolve_left (hcut.ne_nil g hg)
  rw [closesEarly_intercalate_iff (hsolid _ hg)]
  rintro ⟨r, hr, hclosed⟩
  rw [hcut.isClosed_of_concat hg r hr] at hclosed
  exact absurd hclosed (by decide)

/-! ## Specifiers -/

/-- **A plain word**: it has characters, and none of them is a blank or a brace. -/
structure PlainWord where
  text : Text
  solid : Text.IsSolid text
  noOpen : '{' ∉ text
  noClose : '}' ∉ text

/-- **A brace group**: the braces in it match, it has only single spaces for blanks, and no quotes
and no backslashes. -/
structure BraceGroup where
  content : Text
  braceable : IsBraceable content
  spaced : Text.IsSingleSpaced (braced content)

/-- **The default of a specifier.** -/
inductive Default
  | word (w : PlainWord)
  | group (g : BraceGroup)

/-- **A specifier**: a plain name, or a name and a default in braces. -/
inductive Specifier
  | plain (name : PlainWord)
  | optional (name : PlainWord) (default : Default)

namespace Default

def text : Default → Text
  | word w => w.text
  | group g => braced g.content

theorem text_ne_nil : ∀ d : Default, d.text ≠ []
  | word w => w.solid.1
  | group _ => List.cons_ne_nil _ _

theorem isSingleSpaced_text : ∀ d : Default, Text.IsSingleSpaced d.text
  | word w => w.solid.isSingleSpaced
  | group g => g.spaced

end Default

theorem PlainWord.isGroup_text (w : PlainWord) : isGroup w.text = false := by
  rw [Bool.eq_false_iff]
  intro h
  obtain ⟨t, ht⟩ := eq_cons_of_isGroup h
  exact w.noOpen (ht ▸ List.mem_cons_self)

namespace Specifier

/-- The specifier as it is written. -/
def write : Specifier → Text
  | plain name => name.text
  | optional name default => braced (name.text ++ ' ' :: default.text)

/-- The parameter that is meant. -/
def parameter : Specifier → Parameter
  | plain name => ⟨name.text, none, name.text⟩
  | optional name default =>
    ⟨name.text, some default.text, braced (name.text ++ ' ' :: default.text)⟩

theorem raw_parameter (s : Specifier) : s.parameter.raw = s.write := by cases s <;> rfl

theorem isSingleSpaced_write : ∀ s : Specifier, Text.IsSingleSpaced s.write
  | plain name => name.solid.isSingleSpaced
  | optional name default => by
    have hopen : Text.IsSolid ('{' :: name.text) :=
      ⟨by simp, List.forall_mem_cons.mpr ⟨by decide, name.solid.2⟩⟩
    have hclose : Text.IsSingleSpaced (default.text ++ ['}']) :=
      default.isSingleSpaced_text.append default.text_ne_nil (by decide)
    have hwrite : (optional name default).write =
        ('{' :: name.text) ++ ' ' :: (default.text ++ ['}']) := by simp [write, braced]
    exact hwrite ▸ hclose.cons (by simp) hopen

/-- **The pieces of a specifier are one part**, followed by the parts of others, unless it closes
early. -/
theorem cut_cons {gs : List (List Text)} (hgs : Cut gs) :
    ∀ {s : Specifier}, ¬ClosesEarly s.write → Cut (Text.pieces s.write :: gs)
  | plain name, _ => by
    rw [write, Text.pieces_of_isSolid name.solid]
    exact .plain name.isGroup_text hgs
  | optional name default, hearly => by
    have hclosed : isClosed (optional name default).write = true :=
      isClosed_concat ('{' :: (name.text ++ ' ' :: default.text))
    obtain ⟨p, ps, hpieces, hp, hps⟩ :=
      exists_closing (isSingleSpaced_write _) (by rfl) hclosed hearly
    rw [hpieces]
    exact .group hp hps hgs

/-- **A specifier stands for the parameter that is meant.** -/
theorem ofSpecifier?_write : ∀ s : Specifier, ofSpecifier? s.write = some s.parameter
  | plain name => ofSpecifier?_of_plain name.isGroup_text
  | optional name default => by
    have htrim := (default.isSingleSpaced_text.cons default.text_ne_nil name.solid).trim
    have hsplit : Text.splitAtBlank (name.text ++ ' ' :: default.text) =
      (name.text, some default.text) := Text.splitAtBlank_append (by decide) _ name.solid.2
    have hdefault := default.isSingleSpaced_text.trim
    obtain ⟨c, cs, hcs⟩ := List.exists_cons_of_ne_nil
      (by simp : name.text ++ ' ' :: default.text ≠ [])
    rw [write, braced, ofSpecifier?, dropClose, if_pos (isClosed_concat _), List.dropLast_concat,
      ofGroup?_of_trim (htrim.trans hcs), ← hcs, hsplit]
    simp [hdefault, default.text_ne_nil, parameter, braced]

end Specifier

/-! ## Rows of specifiers -/

theorem cut_pieces_write : ∀ {ss : List Specifier}, (∀ s ∈ ss, ¬ClosesEarly s.write) →
    Cut (ss.map fun s => Text.pieces s.write)
  | [], _ => .nil
  | _ :: _, h =>
    have ⟨hs, hss⟩ := List.forall_mem_cons.mp h
    Specifier.cut_cons (cut_pieces_write hss) hs

/-- **One parameter is read per specifier exactly when no specifier closes early.**  Let specifiers
be written in a row with single spaces between them.  The parameters read off the row are those that
the specifiers mean, in order and with the specifiers as their raw texts, if and only if in no
specifier a closing brace stands right before a space. -/
theorem parseList_specifiers_iff (ss : List Specifier) :
    parseList ([' '].intercalate (ss.map Specifier.write)) = ss.map Specifier.parameter ↔
      ∀ s ∈ ss, ¬ClosesEarly s.write := by
  refine ⟨fun h s hs => ?_, fun h => ?_⟩
  · have hs := h ▸ List.mem_map_of_mem hs
    exact s.raw_parameter ▸ not_closesEarly_raw hs
  · have hrow : (ss.map fun s => Text.pieces s.write).map [' '].intercalate =
        ss.map Specifier.write := by
      rw [List.map_map]
      exact List.map_congr_left fun s _ => s.isSingleSpaced_write
    have hsolid : ∀ g ∈ ss.map (fun s => Text.pieces s.write), ∀ p ∈ g, Text.IsSolid p := by
      rintro g hg p hp
      obtain ⟨s, -, rfl⟩ := List.mem_map.mp hg
      exact Text.isSolid_of_mem_pieces hp
    have hspecs := (cut_pieces_write h).specifiers_intercalate hsolid
    rw [hrow] at hspecs
    rw [parseList, hspecs, List.filterMap_map, ← List.filterMap_eq_map]
    exact List.filterMap_congr fun s _ => s.ofSpecifier?_write

/-- **Not every specifier is read as one parameter**: a default that is a brace group with another
one in front is cut after that. -/
theorem not_parseList_specifiers : ¬∀ ss : List Specifier,
    parseList ([' '].intercalate (ss.map Specifier.write)) = ss.map Specifier.parameter := by
  intro h
  let name : PlainWord := ⟨['x'], by decide, by decide, by decide⟩
  let default : BraceGroup := ⟨"\x7ba\x7d b".toList, by decide, by decide⟩
  have hcount := congrArg List.length (h [.optional name (.group default)])
  exact absurd hcount (by decide)

end TclAtlas.Parameter
