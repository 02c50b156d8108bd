import TclAtlas.Text.Basic

/-!
# Text/Blank — blank characters, and what is cut at them

A character is **blank** when Unicode gives it the property White_Space.  Texts are trimmed at blank
characters and cut into their blank-free pieces; no piece is empty (`ne_nil_of_mem_pieces`) and none
holds a blank (`isBlank_of_mem_pieces`).
-/

namespace TclAtlas.Text

/-- **A blank character**: one with the Unicode property White_Space. -/
def isBlank (c : Char) : Bool :=
  let n := c.toNat
  (9 ≤ n && n ≤ 13) || n == 0x20 || n == 0x85 || n == 0xA0 || n == 0x1680 ||
    (0x2000 ≤ n && n ≤ 0x200A) || n == 0x2028 || n == 0x2029 || n == 0x202F || n == 0x205F ||
    n == 0x3000

/-! ## Trimming -/

/-- The text without its leading blanks. -/
def trimStart (t : Text) : Text := t.dropWhile isBlank

/-- The text without its trailing blanks. -/
def trimEnd (t : Text) : Text := (t.reverse.dropWhile isBlank).reverse

/-- The text without leading and trailing blanks. -/
def trim (t : Text) : Text := trimEnd (trimStart t)

/-! ## Pieces -/

/-- The maximal blank-free parts of a text, in order. -/
def pieces (t : Text) : List Text := (t.splitOnP isBlank).filter (!·.isEmpty)

/-- Cutting at the blanks leaves none behind. -/
theorem isBlank_of_mem_splitOnP :
    ∀ {t s : Text}, s ∈ t.splitOnP isBlank → ∀ c ∈ s, isBlank c = false
  | [], s, hs => by simp [List.splitOnP_nil] at hs; simp [hs]
  | d :: t, s, hs => by
    rw [List.splitOnP_cons_eq_if_modifyHead] at hs
    split at hs
    · rcases List.mem_cons.mp hs with rfl | hs
      · simp
      · exact isBlank_of_mem_splitOnP hs
    · next hd =>
      obtain ⟨u, us, hu⟩ := List.exists_cons_of_ne_nil (List.splitOnP_ne_nil isBlank t)
      have ih : ∀ s ∈ u :: us, ∀ c ∈ s, isBlank c = false :=
        hu ▸ fun s hs => isBlank_of_mem_splitOnP hs
      rw [hu, List.modifyHead_cons] at hs
      rcases List.mem_cons.mp hs with rfl | hs
      · intro c hc
        rcases List.mem_cons.mp hc with rfl | hc
        · simpa using hd
        · exact ih u List.mem_cons_self c hc
      · exact ih s (List.mem_cons_of_mem _ hs)

/-- A piece has at least one character. -/
theorem ne_nil_of_mem_pieces {t s : Text} (h : s ∈ pieces t) : s ≠ [] := by
  rintro rfl
  simpa using (List.mem_filter.mp h).2

/-- **A piece holds no blank.** -/
theorem isBlank_of_mem_pieces {t s : Text} (h : s ∈ pieces t) {c : Char} (hc : c ∈ s) :
    isBlank c = false :=
  isBlank_of_mem_splitOnP (List.mem_filter.mp h).1 c hc

/-- The text up to its first blank, and the text after that blank if there is one. -/
def splitAtBlank : Text → Text × Option Text
  | [] => ([], none)
  | c :: t =>
    if isBlank c then ([], some t)
    else ((c :: (splitAtBlank t).1), (splitAtBlank t).2)

end TclAtlas.Text
