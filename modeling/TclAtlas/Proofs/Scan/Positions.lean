import TclAtlas.Proofs.Name.Parts
import TclAtlas.Proofs.Scan.Commands
import TclAtlas.Proofs.Scan.Scopes
import TclAtlas.Proofs.Word.Names
import TclAtlas.Proofs.Word.Spacing
import Mathlib.Data.List.Pairwise

/-!
# Proofs/Scan/Positions — the symbols of a scan stand at their names

A **name stands** in a line at a byte column when a run of name characters begins there that is as
long as can be (`Text.NameAt`).  Words that look like names do (`nameAt_of_mem_splitWords`), and the
findings of a line are located at such words.  At most one of them is a definition or a binding.
These two facts about one line (`LineAt.Carries`) give the places of all symbols of a file and their
order (`scanLines_located`).
-/

namespace TclAtlas

/-! ## Names in a line -/

/-- **A name stands in a line** at a byte column: a run of name characters, at least one, with none
of them before or after it. -/
structure Text.NameAt (line : Text) (column : Nat) (name : Text) : Prop where
  isSymbolName : isSymbolName name = true
  exists_around : ∃ before after, line = before ++ (name ++ after) ∧ byteLength before = column ∧
    (∀ c ∈ before.getLast?, isSymbolChar c = false) ∧ ∀ c ∈ after.head?, isSymbolChar c = false

/-- **A word that looks like a name** stands in the text as a name. -/
theorem nameAt_of_mem_splitWords {t : Text} {w : Word} (hw : w ∈ splitWords t)
    (hname : Text.isSymbolName w.text = true) : Text.NameAt t w.start w.text where
  isSymbolName := hname
  exists_around := by
    obtain ⟨-, before, after, ht, hstart, hlast, hends⟩ := (splitWords_spaced t).exists_around hw
    exact ⟨before, after, ht, by rw [hstart, Nat.zero_add],
      fun c hc => Text.isSymbolChar_of_whitespace (hlast c hc),
      fun c hc => Text.isSymbolChar_of_whitespace (hends c hc)⟩

/-! ## Findings and their places -/

namespace Finding

/-- The place of a finding, if it has one. -/
def location? : Finding → Option Location
  | .definition d => some d.location
  | .binding b => some b.location
  | .dictKeys _ _ _ location => some location
  | .declared _ | .imported _ => none

/-- The place of a finding that is a definition or a binding. -/
def symbol? : Finding → Option Location
  | .definition d => some d.location
  | .binding b => some b.location
  | .dictKeys .. | .declared _ | .imported _ => none

/-- **A name is that of a finding**: a definition is named by the last segment, and says whether the
name is anchored; a binding is named by all of it. -/
def NamedBy (n : Text) : Finding → Prop
  | .definition d => Name.LastSegment n d.name ∧ d.anchored = Name.isAnchored n
  | .binding b => b.name = n
  | .dictKeys .. | .declared _ | .imported _ => True

/-- **A finding stands on a line** when its place, if it has one, is where its name stands in the
line. -/
def StandsOn (l : LineAt) (f : Finding) : Prop :=
  ∀ p ∈ f.location?, p.file = l.file ∧ p.line = l.number ∧
    ∃ n, Text.NameAt l.text p.column n ∧ f.NamedBy n

/-- **A finding comes before another** when it stands on an earlier line, should both be definitions
or bindings. -/
def Before (f g : Finding) : Prop := ∀ p ∈ f.symbol?, ∀ q ∈ g.symbol?, p.line < q.line

theorem location?_of_symbol? {f : Finding} {p : Location} (h : p ∈ f.symbol?) :
    p ∈ f.location? := by
  cases f <;> first | exact h | exact absurd h (by simp [symbol?])

theorem symbol?_of_location? {f : Finding} (h : f.location? = none) : f.symbol? = none := by
  cases f <;> first | rfl | exact absurd h (by simp [location?])

theorem standsOn_of_location? {l : LineAt} {f : Finding} (h : f.location? = none) :
    f.StandsOn l := by
  intro p hp
  rw [h] at hp
  exact absurd hp (by simp)

end Finding

/-- **What a line carries**: findings that stand on it, with at most one definition or binding. -/
structure LineAt.Carries (l : LineAt) (fs : List Finding) : Prop where
  standsOn : ∀ f ∈ fs, f.StandsOn l
  alone : fs.Pairwise fun f g => f.symbol? = none ∨ g.symbol? = none

namespace LineAt.Carries

variable {l : LineAt}

theorem nil : l.Carries [] := ⟨fun _ hf => absurd hf List.not_mem_nil, List.Pairwise.nil⟩

theorem singleton {f : Finding} (hf : f.StandsOn l) : l.Carries [f] :=
  ⟨fun _ hg => List.mem_singleton.mp hg ▸ hf, List.pairwise_singleton ..⟩

/-- Findings that have no place. -/
theorem placeless {fs : List Finding} (h : ∀ f ∈ fs, f.location? = none) : l.Carries fs where
  standsOn f hf := Finding.standsOn_of_location? (h f hf)
  alone := List.pairwise_of_forall_mem_list fun f hf _ _ =>
    Or.inl (Finding.symbol?_of_location? (h f hf))

/-- Findings without a symbol before one finding. -/
theorem concat {fs : List Finding} {f : Finding} (hstands : ∀ g ∈ fs, g.StandsOn l)
    (hnone : ∀ g ∈ fs, g.symbol? = none) (hf : f.StandsOn l) : l.Carries (fs ++ [f]) where
  standsOn g hg := (List.mem_append.mp hg).elim (hstands g) fun hg =>
    List.mem_singleton.mp hg ▸ hf
  alone := List.pairwise_append.mpr ⟨List.pairwise_of_forall_mem_list fun g hg _ _ =>
    Or.inl (hnone g hg), List.pairwise_singleton .., fun g hg _ _ => Or.inl (hnone g hg)⟩

end LineAt.Carries

/-! ## What the words of a line find -/

/-- **The name of a header** is one of the words. -/
theorem Header.exists_mem_of_ofWords? {words : List Word} {h : Header}
    (hh : ofWords? words = some h) : ∃ w ∈ words, h.name = w.text ∧ h.column = w.start ∧
      Text.isSymbolName w.text = true := by
  rw [ofWords?.eq_def] at hh
  split at hh
  · next keyword name params more =>
    obtain ⟨kind, -, hh⟩ := Option.bind_eq_some_iff.mp hh
    split at hh
    · next hname =>
      obtain ⟨list, -, hh⟩ := Option.bind_eq_some_iff.mp hh
      obtain rfl := Option.some.inj hh
      exact ⟨name, by simp, rfl, rfl, hname⟩
    · exact absurd hh (by simp)
  · exact absurd hh (by simp)

namespace ScanState

variable (s : ScanState) (l : LineAt)

theorem carries_definitionFindings :
    l.Carries (s.definitionFindings l (splitWords l.text)) := by
  rw [definitionFindings]
  split
  · exact .nil
  next h hheader =>
  split
  · exact .nil
  next d hmake =>
  obtain ⟨w, hw, hname, hcolumn, hsymbol⟩ := Header.exists_mem_of_ofWords? hheader
  obtain ⟨hsegment, hanchored⟩ := Definition.lastSegment_of_make? hmake
  refine .singleton fun p hp => ?_
  obtain rfl : d.location = p := by simpa [Finding.location?] using hp
  rw [Definition.location_of_make? hmake, LineAt.location, hcolumn]
  rw [hname] at hsegment hanchored
  exact ⟨rfl, rfl, w.text, nameAt_of_mem_splitWords hw hsymbol, hsegment, hanchored⟩

/-- Keys stand where a word that looks like a name does. -/
theorem standsOn_dictKeys {w : Word} (hw : w ∈ splitWords l.text)
    (hname : Text.isSymbolName w.text = true) (n : Text) (keys : List Text) (parent : Option Text) :
    (Finding.dictKeys n keys parent (l.location w.start)).StandsOn l := by
  intro p hp
  obtain rfl : l.location w.start = p := by simpa [Finding.location?] using hp
  exact ⟨rfl, rfl, w.text, nameAt_of_mem_splitWords hw hname, trivial⟩

/-- **A binding stands at the name**, and so do the keys of the dictionary that it describes. -/
theorem carries_matchSet : l.Carries (s.matchSet l (splitWords l.text)).2 := by
  rcases hwords : splitWords l.text with _ | ⟨first, _ | ⟨name, _ | ⟨value, more⟩⟩⟩
  · exact .nil
  · exact .nil
  · exact .nil
  have hw : name ∈ splitWords l.text := by simp [hwords]
  rw [matchSet]
  split
  · next hname =>
    refine .concat (fun g hg => ?_) (fun g hg => ?_) fun p hp => ?_
    · obtain ⟨n, keys, p, rfl⟩ := exists_of_mem_literalFindings hg
      exact standsOn_dictKeys l hw hname n keys p
    · obtain ⟨n, keys, p, rfl⟩ := exists_of_mem_literalFindings hg
      rfl
    · obtain rfl : l.location name.start = p := by simpa [Finding.location?] using hp
      exact ⟨rfl, rfl, name.text, nameAt_of_mem_splitWords hw hname, rfl⟩
  · exact .nil

theorem carries_dictSetFindings : l.Carries (dictSetFindings l (splitWords l.text)) := by
  rcases hwords : splitWords l.text with
    _ | ⟨first, _ | ⟨sub, _ | ⟨name, _ | ⟨key, _ | ⟨value, more⟩⟩⟩⟩⟩
  · exact .nil
  · exact .nil
  · exact .nil
  · exact .nil
  · exact .nil
  have hw : name ∈ splitWords l.text := by simp [hwords]
  rw [dictSetFindings]
  split
  · next h =>
    split
    · exact .nil
    · exact .singleton (standsOn_dictKeys l hw h.2 _ _ _)
  · exact .nil

theorem carries_matchBlock (words : List Word) : l.Carries (s.matchBlock words).2 := by
  refine .placeless fun f hf => ?_
  obtain ⟨ns, rfl⟩ := exists_of_mem_matchBlock hf
  rfl

theorem carries_importFindings (words : List Word) : l.Carries (importFindings words) := by
  refine .placeless fun f hf => ?_
  obtain ⟨i, rfl⟩ := exists_of_mem_importFindings hf
  rfl

theorem carries_matchLine : l.Carries (s.matchLine l).2 :=
  matchLine_rec (motive := fun found => l.Carries found.2) .nil (s.carries_definitionFindings l)
    (fun _ _ hwords _ => hwords ▸ s.carries_matchSet l) (s.carries_matchBlock l _)
    (carries_importFindings l _) (carries_dictSetFindings l)

/-- **The findings of a line are what it carries.** -/
theorem carries_step : l.Carries (s.step l).2 := by
  rw [step_snd]
  split
  · exact .nil
  · exact s.carries_matchLine l

/-! ## Findings line by line -/

/-- **The findings of a run** stand on its lines. -/
theorem exists_standsOn_of_mem_run (file : FileId) : ∀ {lines : List Text} {number : Nat}
    {s : ScanState} {f : Finding}, f ∈ (run file number lines s).2 →
      ∃ i text, lines[i]? = some text ∧ f.StandsOn ⟨file, number + i, text, lines.drop (i + 1)⟩
  | [], _, _, _, hf => absurd hf List.not_mem_nil
  | text :: below, number, s, f, hf => by
    rcases List.mem_append.mp hf with hf | hf
    · exact ⟨0, text, rfl, (s.carries_step ⟨file, number, text, below⟩).standsOn f hf⟩
    · obtain ⟨i, t, ht, hstands⟩ := exists_standsOn_of_mem_run file hf
      refine ⟨i + 1, t, ht, ?_⟩
      rwa [Nat.add_assoc, Nat.add_comm 1 i] at hstands

theorem line_of_mem_run {file : FileId} {lines : List Text} {number : Nat} {s : ScanState}
    {f : Finding} (hf : f ∈ (run file number lines s).2) :
    ∀ p ∈ f.location?, number ≤ p.line ∧ p.line < number + lines.length := by
  intro p hp
  obtain ⟨i, text, htext, hstands⟩ := exists_standsOn_of_mem_run file hf
  have hline : p.line = number + i := (hstands p hp).2.1
  have hi : i < lines.length := (List.getElem?_eq_some_iff.mp htext).1
  omega

/-- **Definitions and bindings are found in the order of their lines**, one on a line. -/
theorem pairwise_before_run (file : FileId) : ∀ (lines : List Text) (number : Nat) (s : ScanState),
    (run file number lines s).2.Pairwise Finding.Before
  | [], _, _ => List.Pairwise.nil
  | text :: below, number, s => by
    have hcarries := s.carries_step ⟨file, number, text, below⟩
    refine List.pairwise_append.mpr ⟨hcarries.alone.imp fun h p hp q hq => ?_,
      pairwise_before_run file below (number + 1) _, fun f hf g hg p hp q hq => ?_⟩
    · rcases h with h | h
      · exact absurd (h ▸ hp) (by simp)
      · exact absurd (h ▸ hq) (by simp)
    · have hfirst := (hcarries.standsOn f hf p (Finding.location?_of_symbol? hp)).2.1
      have hlater := (line_of_mem_run hg q (Finding.location?_of_symbol? hq)).1
      simp only at hfirst
      omega

end ScanState

/-! ## The symbols of a file -/

namespace Finding

variable {fs : List Finding}

/-- **Of two findings** in order, one comes before the other. -/
theorem before_or_before (hfs : fs.Pairwise Before) {f g : Finding} (hf : f ∈ fs) (hg : g ∈ fs)
    (hne : f ≠ g) : f.Before g ∨ g.Before f := by
  have hsymm : Std.Symm fun f g : Finding => f.Before g ∨ g.Before f := ⟨fun _ _ => Or.symm⟩
  have heither : fs.Pairwise fun f g => f.Before g ∨ g.Before f := hfs.imp Or.inl
  exact heither.forall hf hg hne

/-- **Symbols picked from findings in order** come in the order of their lines. -/
theorem pairwise_filterMap (hfs : fs.Pairwise Before) {α : Type} {pick : Finding → Option α}
    {place : α → Location} (hpick : ∀ f, ∀ a ∈ pick f, f.symbol? = some (place a)) :
    (fs.filterMap pick).Pairwise fun a b => (place a).line < (place b).line :=
  hfs.filterMap pick fun f g h a ha b hb => h _ (hpick f a ha) _ (hpick g b hb)

theorem symbol?_of_definition? : ∀ f : Finding, ∀ d ∈ f.definition?, f.symbol? = some d.location
  | .definition _, _, h => congrArg (fun d : Definition => some d.location) (Option.some.inj h)
  | .binding _, _, h | .dictKeys .., _, h | .declared _, _, h | .imported _, _, h =>
    absurd h (by simp [definition?])

theorem symbol?_of_binding? : ∀ f : Finding, ∀ b ∈ f.binding?, f.symbol? = some b.location
  | .binding _, _, h => congrArg (fun b : Binding => some b.location) (Option.some.inj h)
  | .definition _, _, h | .dictKeys .., _, h | .declared _, _, h | .imported _, _, h =>
    absurd h (by simp [binding?])

end Finding

namespace Outline

variable {fs : List Finding}

theorem mem_definitions_iff {d : Definition} :
    d ∈ (ofFindings fs).definitions ↔ .definition d ∈ fs := by
  rw [definitions_ofFindings, List.mem_filterMap]
  constructor
  · rintro ⟨f, hf, hd⟩
    cases f with
    | definition e => exact Option.some.inj hd ▸ hf
    | _ => exact absurd hd (by simp [Finding.definition?])
  · exact fun h => ⟨_, h, rfl⟩

theorem mem_bindings_iff {b : Binding} : b ∈ (ofFindings fs).bindings ↔ .binding b ∈ fs := by
  rw [bindings_ofFindings, List.mem_filterMap]
  constructor
  · rintro ⟨f, hf, hb⟩
    cases f with
    | binding c => exact Option.some.inj hb ▸ hf
    | _ => exact absurd hb (by simp [Finding.binding?])
  · exact fun h => ⟨_, h, rfl⟩

/-- **Findings in order** put no definition on the line of a binding. -/
theorem line_definition_ne_line_binding (hfs : fs.Pairwise Finding.Before) {d : Definition}
    (hd : d ∈ (ofFindings fs).definitions) {b : Binding} (hb : b ∈ (ofFindings fs).bindings) :
    d.location.line ≠ b.location.line := by
  rcases Finding.before_or_before hfs (mem_definitions_iff.mp hd) (mem_bindings_iff.mp hb)
    (by simp) with h | h
  · exact (h d.location rfl b.location rfl).ne
  · exact (h b.location rfl d.location rfl).ne'

end Outline

/-- Places on lines in order differ. -/
theorem Location.nodup_map {α : Type} {place : α → Location} {as : List α}
    (h : as.Pairwise fun a b => (place a).line < (place b).line) : (as.map place).Nodup :=
  List.pairwise_map.mpr (h.imp fun hlt heq => by simp [heq] at hlt)

/-- **The symbols of a file stand at their names.**  A definition is located in the file, on one of
its lines, where a name stands that has the name of the definition as its last segment and is
anchored when the definition is.  A binding is located where its own name stands, and a dictionary
shape where some name does.  The definitions come in the order of their lines, one on a line, and so
do the bindings; no line has one of each.  So all their places differ. -/
theorem scanLines_located (file : FileId) (lines : List Text) :
    let o := scanLines file lines
    (∀ d ∈ o.definitions, d.location.file = file ∧
      ∃ line, lines[d.location.line]? = some line ∧
        ∃ n, Text.NameAt line d.location.column n ∧ Name.LastSegment n d.name ∧
          (d.anchored = true ↔ Name.separator <+: n)) ∧
    (∀ b ∈ o.bindings, b.location.file = file ∧
      ∃ line, lines[b.location.line]? = some line ∧ Text.NameAt line b.location.column b.name) ∧
    (∀ n d, o.dicts.get? n = some d → d.location.file = file ∧
      ∃ line, lines[d.location.line]? = some line ∧ ∃ n, Text.NameAt line d.location.column n) ∧
    (o.definitions.Pairwise fun d e => d.location.line < e.location.line) ∧
    (o.bindings.Pairwise fun b c => b.location.line < c.location.line) ∧
    (∀ d ∈ o.definitions, ∀ b ∈ o.bindings, d.location.line ≠ b.location.line) ∧
    (o.definitions.map Definition.location ++ o.bindings.map Binding.location).Nodup := by
  intro o
  have hstands : ∀ f ∈ (ScanState.start.run file 0 lines).2, ∀ p ∈ f.location?, p.file = file ∧
      ∃ line, lines[p.line]? = some line ∧ ∃ n, Text.NameAt line p.column n ∧ f.NamedBy n := by
    intro f hf p hp
    obtain ⟨i, text, htext, h⟩ := ScanState.exists_standsOn_of_mem_run file hf
    obtain ⟨hfile, hline, hname⟩ := h p hp
    rw [Nat.zero_add] at hline
    exact ⟨hfile, text, hline ▸ htext, hname⟩
  have hbefore := ScanState.pairwise_before_run file lines 0 .start
  have hdefinitions : o.definitions.Pairwise fun d e => d.location.line < e.location.line :=
    (Outline.definitions_ofFindings _).symm ▸
      Finding.pairwise_filterMap hbefore Finding.symbol?_of_definition?
  have hbindings : o.bindings.Pairwise fun b c => b.location.line < c.location.line :=
    (Outline.bindings_ofFindings _).symm ▸
      Finding.pairwise_filterMap hbefore Finding.symbol?_of_binding?
  have hdiffer : ∀ d ∈ o.definitions, ∀ b ∈ o.bindings, d.location.line ≠ b.location.line :=
    fun _ hd _ hb => Outline.line_definition_ne_line_binding hbefore hd hb
  refine ⟨fun d hd => ?_, fun b hb => ?_, fun n d hd => ?_, hdefinitions, hbindings, hdiffer, ?_⟩
  · obtain ⟨hfile, line, hline, n, hname, hsegment, hanchored⟩ :=
      hstands _ (Outline.mem_definitions_iff.mp hd) d.location rfl
    exact ⟨hfile, line, hline, n, hname, hsegment, by rw [hanchored, Name.isAnchored_iff]⟩
  · obtain ⟨hfile, line, hline, n, hname, rfl⟩ :=
      hstands _ (Outline.mem_bindings_iff.mp hb) b.location rfl
    exact ⟨hfile, line, hline, hname⟩
  · obtain ⟨keys, parent, hmem⟩ := Outline.exists_mem_of_get?_ofFindings hd
    obtain ⟨hfile, line, hline, m, hname, -⟩ := hstands _ hmem d.location rfl
    exact ⟨hfile, line, hline, m, hname⟩
  · refine List.nodup_append.mpr ⟨Location.nodup_map hdefinitions, Location.nodup_map hbindings, ?_⟩
    intro p hp q hq heq
    obtain ⟨d, hd, rfl⟩ := List.mem_map.mp hp
    obtain ⟨b, hb, rfl⟩ := List.mem_map.mp hq
    exact hdiffer d hd b hb (congrArg Location.line heq)

/-- A definition, a value that goes over two lines, and a dictionary written over two. -/
example :
    let o := scanLines ⟨0⟩ ["proc ::a::p \x7bx\x7d \x7b\x7d".toList, "set v one\\".toList,
      " two".toList, "set d [dict create \\".toList, " k 1]".toList]
    o.definitions.map Definition.location = [⟨⟨0⟩, 0, 5⟩] ∧
      o.bindings.map Binding.location = [⟨⟨0⟩, 1, 4⟩, ⟨⟨0⟩, 3, 4⟩] ∧
      (o.dicts.get? ['d']).map DictShape.location = some ⟨⟨0⟩, 3, 4⟩ := by
  decide +kernel

end TclAtlas
