import TclAtlas.Proofs.Parameter.Splitting
import TclAtlas.Proofs.Script.Tree
import TclAtlas.Proofs.Word.Content
import TclAtlas.Proofs.Word.Names
import TclAtlas.Proofs.Word.Reading

/-!
# Proofs/Script/Headers — what the header lines of a script say

The words of a header line are those it is made of (`Callable.wordsFrom_header`,
`BlockName.wordsFrom_header`).  So the header of a callable is read with its kind, its name and its
parameters (`Callable.ofWords?_header`), and the name of a block names the joined path
(`BlockName.blockName_text`).
-/

namespace TclAtlas

/-! ## Parameter lists -/

namespace Parameter

/-- Plain pieces are read one by one. -/
theorem assemble_of_plain : ∀ {ps : List Text}, (∀ p ∈ ps, isGroup p = false) →
    assemble none ps = ps
  | [], _ => rfl
  | p :: ps, h => by
    have hp : isGroup p = false := h p List.mem_cons_self
    have ih := assemble_of_plain fun q hq => h q (List.mem_cons_of_mem p hq)
    simp [assemble, hp, ih]

end Parameter

namespace Script

theorem PlainName.isGroup_text (n : PlainName) : Parameter.isGroup n.text = false := by
  obtain ⟨c, cs, hc⟩ := List.exists_cons_of_ne_nil n.ne_nil
  have hne : c ≠ '{' :=
    Text.ne_of_isNameChar (n.plain c (hc ▸ List.mem_cons_self)) (by decide)
  simp [Parameter.isGroup, hc, hne]

theorem PlainName.isSolid (n : PlainName) : Text.IsSolid n.text :=
  ⟨n.ne_nil, fun c hc => Text.isBlank_of_isNameChar (n.plain c hc)⟩

theorem joined_eq_intercalate (separator : Text) : ∀ ns : List PlainName,
    joined separator ns = separator.intercalate (ns.map PlainName.text)
  | [] => rfl
  | [n] => by simp [joined]
  | n :: m :: ns => by
    rw [joined, joined_eq_intercalate separator (m :: ns), List.map_cons, List.map_cons,
      List.map_cons, List.intercalate_cons_cons]

theorem pieces_joined (ns : List PlainName) :
    Text.pieces (joined [' '] ns) = ns.map PlainName.text := by
  rw [joined_eq_intercalate]
  refine Text.pieces_intercalate fun p hp => ?_
  obtain ⟨n, -, rfl⟩ := List.mem_map.mp hp
  exact n.isSolid

/-- **A list of plain names** gives parameters without defaults. -/
theorem parseList_joined (ns : List PlainName) :
    Parameter.parseList (joined [' '] ns) = ns.map fun n => .required n.text := by
  have hplain : ∀ p ∈ ns.map PlainName.text, Parameter.isGroup p = false := by
    intro p hp
    obtain ⟨n, -, rfl⟩ := List.mem_map.mp hp
    exact n.isGroup_text
  have hread : ∀ n : PlainName,
      Parameter.ofSpecifier? n.text = some (Parameter.required n.text) :=
    fun n => Parameter.ofSpecifier?_of_plain n.isGroup_text
  rw [Parameter.parseList, Parameter.specifiers, pieces_joined, Parameter.assemble_of_plain hplain,
    List.filterMap_map]
  simp [hread]

/-! ## The words of a header -/

/-- **Letters, digits and underscores are a word.** -/
theorem isWord_of_all_isNameChar {t : Text} (hne : t ≠ []) (ht : t.all Text.isNameChar = true) :
    IsWord t :=
  .of_text hne fun c hc => Text.ofChar_of_isNameChar (List.all_eq_true.mp ht c hc)

theorem PlainName.isWord (n : PlainName) : IsWord n.text :=
  isWord_of_all_isNameChar n.ne_nil (List.all_eq_true.mpr n.plain)

theorem isWord_keyword (k : DefinitionKind) : IsWord k.keyword := by
  cases k <;> exact isWord_of_all_isNameChar (by decide) (by decide)

theorem Indent.isGap (i : Indent) : IsGap i.text := by
  intro c hc
  rcases i.blank c hc with rfl | rfl <;> rfl

namespace Callable

variable (h : Callable)

theorem runs_of_mem_list : ∀ c ∈ joined [' '] h.params, (LexemeKind.ofChar c).runs = true := by
  intro c hc
  rcases mem_joined hc with hc | hc
  · rw [Text.ofChar_of_isNameChar hc]
    rfl
  · obtain rfl : c = ' ' := by simpa using hc
    rfl

/-- **The words of the header of a callable**: keyword, name, parameter list and opening brace. -/
theorem words_header (opening : Indent) : ∃ m n, splitWords (opening.text ++ h.header) =
    [⟨h.kind.keyword, Text.byteLength opening.text⟩,
      ⟨h.name.text, Text.byteLength opening.text + Text.byteLength h.kind.keyword + 1⟩,
      ⟨h.list, m⟩, ⟨['{'], n⟩] := by
  have hlist : IsWord h.list := .braced h.runs_of_mem_list
  rw [splitWords_eq_wordsFrom, wordsFrom_gap_append opening.isGap, header,
    (isWord_keyword h.kind).wordsFrom_space, h.name.isWord.wordsFrom_space, hlist.wordsFrom_space,
    Nat.zero_add]
  exact ⟨_, _, rfl⟩

/-- **The header of a callable is read as it is meant.** -/
theorem ofWords?_header (opening : Indent) :
    Header.ofWords? (splitWords (opening.text ++ h.header)) =
      some ⟨h.kind, h.name.text, h.params.map fun p => .required p.text,
        Text.byteLength opening.text + Text.byteLength h.kind.keyword + 1⟩ := by
  obtain ⟨m, n, hwords⟩ := h.words_header opening
  have hname : Text.isSymbolName h.name.text = true :=
    Text.isSymbolName_of h.name.ne_nil fun c hc => by simp [Text.isSymbolChar, h.name.plain c hc]
  have hcontent : Delimiter.brace.content? h.list = some (joined [' '] h.params) :=
    (Delimiter.balanced_of_runs h.runs_of_mem_list).content? []
  rw [hwords, ← parseList_joined]
  simp [Header.ofWords?, hname, hcontent]

end Callable

namespace BlockName

variable (b : BlockName)

theorem isNameChar_or_of_mem : ∀ c ∈ b.text, Text.isNameChar c = true ∨ c = ':' := by
  intro c hc
  rw [text, List.mem_append] at hc
  rcases hc with hc | hc
  · split at hc
    · exact Or.inr (by simpa [Name.separator] using hc)
    · exact absurd hc (by simp)
  · exact (mem_joined hc).imp_right fun hc => by simpa [Name.separator] using hc

theorem text_ne_nil : b.text ≠ [] := by
  obtain ⟨c, cs, hc, -⟩ := exists_joined_eq_cons Name.separator b.first b.more
  simp [text, hc]

theorem isWord : IsWord b.text := by
  refine .of_text b.text_ne_nil fun c hc => ?_
  rcases b.isNameChar_or_of_mem c hc with hc | rfl
  · exact Text.ofChar_of_isNameChar hc
  · rfl

/-- **The words of the header of a block.** -/
theorem words_header (opening : Indent) : ∃ k l m n, splitWords (opening.text ++ b.header) =
    [⟨ScanState.namespaceWord, k⟩, ⟨ScanState.evalWord, l⟩, ⟨b.text, m⟩, ⟨['{'], n⟩] := by
  have hns : IsWord ScanState.namespaceWord := isWord_of_all_isNameChar (by decide) (by decide)
  have heval : IsWord ScanState.evalWord := isWord_of_all_isNameChar (by decide) (by decide)
  rw [splitWords_eq_wordsFrom, wordsFrom_gap_append opening.isGap, header, hns.wordsFrom_space,
    heval.wordsFrom_space, b.isWord.wordsFrom_space]
  exact ⟨_, _, _, _, rfl⟩

theorem isSymbolName_text : Text.isSymbolName b.text = true := by
  refine Text.isSymbolName_of b.text_ne_nil fun c hc => ?_
  rcases b.isNameChar_or_of_mem c hc with hc | rfl
  · simp [Text.isSymbolChar, hc]
  · decide

/-- A name of a block is not wrapped. -/
theorem unwrap_text : Text.unwrap b.text = b.text := by
  obtain ⟨c, cs, hc⟩ := List.exists_cons_of_ne_nil b.text_ne_nil
  have hne : c ≠ '{' ∧ c ≠ '"' := by
    rcases b.isNameChar_or_of_mem c (hc ▸ List.mem_cons_self) with hc | rfl
    · exact ⟨Text.ne_of_isNameChar hc (by decide), Text.ne_of_isNameChar hc (by decide)⟩
    · decide
  rw [hc, Text.unwrap_cons_of_ne hne.1 hne.2]

end BlockName

/-- A name without colons is not qualified. -/
theorem isQualified_of_not_mem {n : Text} (h : ':' ∉ n) : Name.isQualified n = false := by
  rcases hsplit : Name.splitLast? n with _ | ⟨before, after⟩
  · rw [Name.isQualified, hsplit]
    rfl
  · refine absurd ?_ h
    rw [← Name.join_of_splitLast? hsplit]
    simp [Name.join, Name.separator]

theorem PlainName.isQualified_text (n : PlainName) : Name.isQualified n.text = false :=
  isQualified_of_not_mem fun h => absurd (n.plain ':' h) (by decide)

/-- A joined name is not anchored. -/
theorem isAnchored_joined : ∀ ns : List PlainName,
    Name.isAnchored (joined Name.separator ns) = false
  | [] => rfl
  | n :: ns => by
    obtain ⟨c, cs, hcs, hc⟩ := exists_joined_eq_cons Name.separator n ns
    have hne : ':' ≠ c := (Text.ne_of_isNameChar hc (by decide)).symm
    rw [Name.isAnchored, hcs]
    simp [Name.separator, List.isPrefixOf, hne]

/-- The namespace of a path is a name in front of others. -/
theorem asNamespace_owner (path : List PlainName) :
    (owner path).bind Name.asNamespace = owner path := by
  cases path with
  | nil => rfl
  | cons n ns =>
    have hanchor := isAnchored_joined (n :: ns)
    obtain ⟨c, cs, hcs, -⟩ := exists_joined_eq_cons Name.separator n ns
    simp [owner, Name.asNamespace, Name.unanchored, hcs] at hanchor ⊢
    simp [hanchor]

theorem BlockName.exists_path_eq_cons (b : BlockName) (path : List PlainName) :
    ∃ n ns, b.path path = n :: ns := by
  refine List.exists_cons_of_ne_nil ?_
  cases hb : b.anchored <;> simp [BlockName.path, hb]

theorem BlockName.joined_path_ne_nil (b : BlockName) (path : List PlainName) :
    joined Name.separator (b.path path) ≠ [] := by
  obtain ⟨n, ns, hb⟩ := b.exists_path_eq_cons path
  obtain ⟨c, cs, hcs, -⟩ := exists_joined_eq_cons Name.separator n ns
  simp [hb, hcs]

/-- **The block of a name** has the path that the name stands for. -/
theorem blockName_text (b : BlockName) {s : ScanState} {path : List PlainName}
    (hs : s.current = owner path) :
    s.blockName b.text = joined Name.separator (b.path path) := by
  cases hb : b.anchored with
  | false =>
    have htext : b.text = joined Name.separator (b.first :: b.more) := by simp [BlockName.text, hb]
    have hanchor : Name.isAnchored b.text = false := htext ▸ isAnchored_joined _
    rw [ScanState.blockName, hanchor, htext, hs]
    simpa [BlockName.path, hb] using qualify_owner b.first b.more path
  | true =>
    have htext : b.text = Name.separator ++ joined Name.separator (b.first :: b.more) := by
      simp [BlockName.text, hb]
    have hanchor : Name.isAnchored b.text = true := by
      rw [htext, Name.isAnchored]
      simp
    rw [ScanState.blockName, if_pos hanchor, Name.unanchored, if_pos hanchor, htext]
    simp [BlockName.path, hb, Name.separator]

end Script

end TclAtlas
