import TclAtlas.Proofs.Ledger.Run
import TclAtlas.Proofs.Registry.Growth
import TclAtlas.Proofs.Scan.Locations

/-!
# Proofs/Ledger/Mirror — a ledger that holds just given texts

A ledger **mirrors** texts given by path when its outlines are those of the texts
(`Ledger.Mirrors`).  A commit with a new ticket carries the change of one text over
(`Ledger.Mirrors.update`).  Two ledgers that mirror the same texts hold the same outlines of the
same paths, up to the numbers of the files (`Ledger.Mirrors.sameUpTo`).
-/

namespace TclAtlas

namespace Ledger

/-- The outline held for a path. -/
def outlineAt? (l : Ledger) (p : FileKey) : Option Outline :=
  (l.registry.get? p).bind l.catalog.outline?

/-- **Every file of the catalog has a path.** -/
def Registered (l : Ledger) : Prop := ∀ file ∈ l.catalog.files, ∃ p, l.registry.get? p = some file

/-- **A new number** is no file's yet when all files have numbers of paths. -/
theorem outlineAt?_register {l : Ledger} (h : l.Registered) (p q : FileKey) :
    (l.register p).2.outlineAt? q = l.outlineAt? q := by
  change ((l.registry.register p).2.get? q).bind l.catalog.outline? =
    (l.registry.get? q).bind l.catalog.outline?
  rcases hold : l.registry.get? q with _ | file
  · rcases eq_or_ne q p with rfl | hne
    · rw [Registry.get?_register, Registry.register_fst_of_get?_eq_none hold]
      refine Option.not_isSome_iff_eq_none.mp fun hsome => ?_
      obtain ⟨q', hq'⟩ := h _ ((Catalog.mem_files_iff _ _).mpr hsome)
      exact absurd (Registry.number_lt_of_get? hq') (Nat.lt_irrefl _)
    · rw [Registry.get?_register_of_ne hne, hold]
  · rw [Registry.get?_register_of_get? hold p]

/-- **A commit with a new ticket** changes the outline of one path. -/
theorem outlineAt?_update {l : Ledger} (hl : l.Timely) {p : FileKey} {file : FileId}
    (hp : l.registry.get? p = some file) (o : Option Outline) (q : FileKey) :
    ((l.issue file).2.commit (l.issue file).1 o).2.outlineAt? q =
      if q = p then o else l.outlineAt? q := by
  have houtline : ∀ f, ((l.issue file).2.commit (l.issue file).1 o).2.catalog.outline? f =
      if f = file then o else l.catalog.outline? f := by
    intro f
    rw [outline?_commit]
    exact if_congr ⟨And.left, fun hf => ⟨hf, hl.isStale_issue file⟩⟩ rfl rfl
  rw [outlineAt?, registry_commit, outlineAt?]
  change (l.registry.get? q).bind _ = _
  split
  · next heq =>
    rw [heq, hp]
    exact (houtline file).trans (if_pos rfl)
  · next hne =>
    rcases hq : l.registry.get? q with _ | f
    · rfl
    · have hf : f ≠ file := by
        rintro rfl
        exact hne (Registry.eq_of_get?_eq_some hq hp)
      exact (houtline f).trans (if_neg hf)

/-- **Two ledgers hold the same outlines of the same paths**, where a file of the first has the
number `ρ` of it in the second. -/
structure SameUpTo (ρ : FileId → FileId) (l l' : Ledger) : Prop where
  outlineAt? : ∀ p, l'.outlineAt? p = (l.outlineAt? p).map (Outline.renumber ρ)
  renumbers : ∀ p file, l.registry.get? p = some file → file ∈ l.catalog.files →
    l'.registry.get? p = some (ρ file)
  injective : ∀ file ∈ l.catalog.files, ∀ file' ∈ l.catalog.files, ρ file = ρ file' → file = file'
  /-- All files have a path, in the one ledger and in the other. -/
  registered : ∀ file ∈ l.catalog.files, ∃ p, l.registry.get? p = some file
  registered' : ∀ file ∈ l'.catalog.files, ∃ p, l'.registry.get? p = some file

/-- **A ledger mirrors texts**: the file of a path has the outline of the text there, or none if
there is no text, and there are no other files. -/
structure Mirrors (l : Ledger) (text? : FileKey → Option Text) : Prop where
  outline? : ∀ p file, l.registry.get? p = some file →
    l.catalog.outline? file = (text? p).map (scanText file)
  unregistered : ∀ p, l.registry.get? p = none → text? p = none
  registered : ∀ file ∈ l.catalog.files, ∃ p, l.registry.get? p = some file

namespace Mirrors

variable {l l' : Ledger} {text? text?' : FileKey → Option Text}

theorem congr (h : l.Mirrors text?) (heq : ∀ p, text?' p = text? p) : l.Mirrors text?' :=
  (funext heq : text?' = text?) ▸ h

theorem outlineAt?_eq (h : l.Mirrors text?) (p : FileKey) :
    l.outlineAt? p = (l.registry.get? p).bind fun file => (text? p).map (scanText file) := by
  rw [outlineAt?]
  rcases hp : l.registry.get? p with _ | file
  · rfl
  · exact h.outline? p file hp

/-- **Mirrors of the same texts are the same**, up to the numbers of the files. -/
theorem sameUpTo (h : l.Mirrors text?) (h' : l'.Mirrors text?) : ∃ ρ, SameUpTo ρ l l' := by
  let ρ : FileId → FileId := fun file =>
    ((l.registry.path? file).bind l'.registry.get?).getD file
  have hρ : ∀ p file file', l.registry.get? p = some file → l'.registry.get? p = some file' →
      ρ file = file' := by
    intro p file file' hp hp'
    show ((l.registry.path? file).bind l'.registry.get?).getD file = file'
    rw [(l.registry.get?_eq_some_iff p file).mp hp, Option.bind_some, hp', Option.getD_some]
  have hrenumbers : ∀ p file, l.registry.get? p = some file → file ∈ l.catalog.files →
      l'.registry.get? p = some (ρ file) := by
    intro p file hp hfile
    rcases hp' : l'.registry.get? p with _ | file'
    · rw [Catalog.mem_files_iff, h.outline? p file hp, h'.unregistered p hp'] at hfile
      exact absurd hfile (by simp)
    · rw [hρ p file file' hp hp']
  refine ⟨ρ, fun p => ?_, hrenumbers, ?_, h.registered, h'.registered⟩
  · rw [h.outlineAt?_eq, h'.outlineAt?_eq]
    rcases htext : text? p with _ | text
    · rcases l.registry.get? p <;> rcases l'.registry.get? p <;> rfl
    · obtain ⟨file, hp⟩ : ∃ file, l.registry.get? p = some file :=
        Option.ne_none_iff_exists'.mp fun hp =>
          absurd ((h.unregistered p hp).symm.trans htext) (by simp)
      obtain ⟨file', hp'⟩ : ∃ file', l'.registry.get? p = some file' :=
        Option.ne_none_iff_exists'.mp fun hp' =>
          absurd ((h'.unregistered p hp').symm.trans htext) (by simp)
      obtain rfl : ρ file = file' := hρ p file file' hp hp'
      simp [hp, hp', scanText_renumber]
  · intro file hfile file' hfile' heq
    obtain ⟨p, hp⟩ := h.registered file hfile
    obtain ⟨p', hp'⟩ := h.registered file' hfile'
    have hsame : l'.registry.get? p = some (ρ file') :=
      heq ▸ hrenumbers p file hp hfile
    obtain rfl := Registry.eq_of_get?_eq_some hsame (hrenumbers p' file' hp' hfile')
    exact Option.some.inj (hp.symm.trans hp')

/-! ## Changes of single files -/

/-- **Registering a path** changes nothing about the texts. -/
theorem register (h : l.Mirrors text?) (p : FileKey) : (l.register p).2.Mirrors text? where
  outline? q file hq := by
    have hsame := outlineAt?_register h.registered p q
    rw [outlineAt?, hq, h.outlineAt?_eq] at hsame
    refine hsame.trans ?_
    rcases hold : l.registry.get? q with _ | file'
    · rw [h.unregistered q hold]
      rfl
    · obtain rfl : file' = file :=
        Option.some.inj ((Registry.get?_register_of_get? hold p).symm.trans hq)
      rfl
  unregistered q hq := by
    change (l.registry.register p).2.get? q = none at hq
    refine h.unregistered q (Option.eq_none_iff_forall_ne_some.mpr fun file hfile => ?_)
    exact absurd ((Registry.get?_register_of_get? hfile p).symm.trans hq) (by simp)
  registered file hfile := by
    obtain ⟨q, hq⟩ := h.registered file hfile
    exact ⟨q, Registry.get?_register_of_get? hq p⟩

/-- **A commit with a new ticket** carries over the change of one text. -/
theorem update (h : l.Mirrors text?) (hl : l.Timely) {p : FileKey} {file : FileId}
    (hp : l.registry.get? p = some file) (hother : ∀ q, q ≠ p → text?' q = text? q) :
    ((l.issue file).2.commit (l.issue file).1 ((text?' p).map (scanText file))).2.Mirrors
      text?' := by
  refine ⟨fun q f hq => ?_, fun q hq => ?_, fun f hf => ?_⟩
  · have hafter := outlineAt?_update hl hp ((text?' p).map (scanText file)) q
    rw [outlineAt?, hq] at hafter
    rw [registry_commit] at hq
    change l.registry.get? q = some f at hq
    refine hafter.trans ?_
    split
    · next heq =>
      obtain rfl : file = f := Option.some.inj (hp.symm.trans (heq ▸ hq))
      rw [heq]
    · next hne =>
      rw [hother q hne, h.outlineAt?_eq, hq]
      rfl
  · rw [registry_commit] at hq
    have hne : q ≠ p := by
      rintro rfl
      exact absurd (hp.symm.trans hq) (by simp)
    rw [hother q hne]
    exact h.unregistered q hq
  · rw [registry_commit]
    rcases eq_or_ne f file with rfl | hne
    · exact ⟨p, hp⟩
    · refine h.registered f ?_
      rwa [Catalog.mem_files_iff, outline?_commit_of_ne _ hne, ← Catalog.mem_files_iff] at hf

end Mirrors

end Ledger

end TclAtlas
