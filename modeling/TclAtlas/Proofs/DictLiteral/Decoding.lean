import TclAtlas.DictLiteral
import TclAtlas.Proofs.Word.Closed

/-!
# Proofs/DictLiteral/Decoding — literals decode to the tree they were written from

A **literal tree** is a list of pairs whose keys are closed words and whose values are closed words
or again such trees.  It is written as `[dict create k₁ v₁ k₂ v₂ …]` with single spaces, subtrees in
the same way.  A written tree is a closed word itself (`LiteralTree.isClosedWord_render`), so at
every level the words found between the brackets are the keys and values that were written there
(`text_wordsFrom_spaced`), and the entries decoded are those of the tree
(`LiteralTree.entries_render`).
-/

namespace TclAtlas

/-! ## Words with single spaces in front -/

/-- Words one after the other, each with a space in front. -/
def spaced (ws : List Text) : Text := ws.flatMap (' ' :: ·)

theorem endsWord_spaced (ws : List Text) : EndsWord (spaced ws) := by
  rcases ws with _ | ⟨w, ws⟩ <;> simp [EndsWord, spaced, LexemeKind.ofChar]

theorem wordsFrom_spaced_cons {w : Text} (hw : IsClosedWord w) (ws : List Text) (n : Nat) :
    wordsFrom n (spaced (w :: ws)) =
      ⟨w, n + 1⟩ :: wordsFrom (n + 1 + Text.byteLength w) (spaced ws) := by
  change wordsFrom n (' ' :: (w ++ spaced ws)) = _
  rw [wordsFrom_cons_of_whitespace (by decide)]
  exact hw.wordsFrom_append (endsWord_spaced ws) (n + 1)

/-- **Closed words with spaces in front are the words of their text.** -/
theorem text_wordsFrom_spaced : ∀ {ws : List Text}, (∀ w ∈ ws, IsClosedWord w) → ∀ n : Nat,
    (wordsFrom n (spaced ws)).map Word.text = ws
  | [], _, _ => rfl
  | w :: ws, h, n => by
    obtain ⟨hw, hws⟩ := List.forall_mem_cons.mp h
    rw [wordsFrom_spaced_cons hw, List.map_cons, text_wordsFrom_spaced hws]

/-- **Closed words after a balanced text** make a balanced text. -/
theorem IsBalanced.append_spaced : ∀ {ws : List Text}, (∀ w ∈ ws, IsClosedWord w) → ∀ {s : Text},
    IsBalanced s → IsBalanced (s ++ spaced ws)
  | [], _, s, hs => by simpa [spaced] using hs
  | w :: ws, h, s, hs => by
    obtain ⟨hw, hws⟩ := List.forall_mem_cons.mp h
    have hsplit : s ++ spaced (w :: ws) = (s ++ ' ' :: w) ++ spaced ws := by simp [spaced]
    rw [hsplit]
    exact append_spaced hws (hs.append_word hw)

/-! ## Writing a literal -/

namespace DictLiteral

/-- **The literal with the given words** as keys and values in turn. -/
def write (ws : List Text) : Text := '[' :: (dictWord ++ spaced (createWord :: ws) ++ [']'])

theorem isClosedWord_dictWord : IsClosedWord dictWord := by decide

theorem isClosedWord_createWord : IsClosedWord createWord := by decide

theorem trim_bracketed (s : Text) : Text.trim ('[' :: (s ++ [']'])) = '[' :: (s ++ [']']) := by
  have hopen : Text.isBlank '[' = false := by decide
  have hclose : Text.isBlank ']' = false := by decide
  simp [Text.trim, Text.trimStart, Text.trimEnd, hopen, hclose]

section

variable {ws : List Text} (hws : ∀ w ∈ ws, IsClosedWord w)

include hws

/-- What stands between the brackets of a written literal is balanced. -/
theorem isBalanced_inside : IsBalanced (dictWord ++ spaced (createWord :: ws)) :=
  .append_spaced (List.forall_mem_cons.mpr ⟨isClosedWord_createWord, hws⟩)
    isClosedWord_dictWord.isBalanced

/-- **A written literal is a closed word**, so it may be a value of another one. -/
theorem isClosedWord_write : IsClosedWord (write ws) := (isBalanced_inside hws).bracketed

/-- **The body of a written literal** is its keys and values with spaces in front. -/
theorem body?_write : body? (write ws) = some (spaced ws) := by
  have hwords : splitWords (dictWord ++ spaced (createWord :: ws)) =
      ⟨dictWord, 0⟩ :: ⟨createWord, 5⟩ :: wordsFrom 11 (spaced ws) := by
    rw [splitWords_eq_wordsFrom, isClosedWord_dictWord.wordsFrom_append (endsWord_spaced _),
      wordsFrom_spaced_cons isClosedWord_createWord]
    rfl
  have hdrop : Text.dropBytes (Word.finish ⟨createWord, 5⟩)
      (dictWord ++ spaced (createWord :: ws)) = spaced ws := by
    rw [show dictWord ++ spaced (createWord :: ws) = (dictWord ++ ' ' :: createWord) ++ spaced ws
      from by simp [spaced]]
    exact Text.dropBytes_byteLength_append (dictWord ++ ' ' :: createWord) (spaced ws)
  simp only [body?, write, trim_bracketed, (isBalanced_inside hws).content?_bracketed, hwords,
    hdrop, Option.bind_eq_bind, Option.bind_some, and_self, if_true]

end

/-! ## Reading keys and values -/

/-- The entry of a key, if the key is an identifier when one layer of wrapping is taken off. -/
def keyed (k : Text) (entry : Text → DictEntry) : List DictEntry :=
  if Text.isIdentifier (Text.unwrap k) then [entry (Text.unwrap k)] else []

/-- **A key and its value are read off** the words of a body. -/
theorem map_bodyPairs_spaced {k v : Text} {ws : List Text}
    (h : ∀ w ∈ k :: v :: ws, IsClosedWord w) (f : Text × Text → DictEntry) :
    (entriesWithin.bodyPairs (spaced (k :: v :: ws))).map f =
      keyed k (fun key => f (key, v)) ++ (entriesWithin.bodyPairs (spaced ws)).map f := by
  have hws : ∀ w ∈ ws, IsClosedWord w :=
    fun w hw => h w (List.mem_cons_of_mem k (List.mem_cons_of_mem v hw))
  rw [entriesWithin.bodyPairs, entriesWithin.bodyPairs, splitWords_eq_wordsFrom,
    splitWords_eq_wordsFrom, text_wordsFrom_spaced h, text_wordsFrom_spaced hws, pairs]
  by_cases hk : Text.isIdentifier (Text.unwrap k) = true <;> simp [keyed, Text.identifier?, hk]

end DictLiteral

/-! ## Literal trees -/

/-- **A closed word.** -/
abbrev ClosedWord := {w : Text // IsClosedWord w}

/-- **What a dictionary literal is written from**: pairs of a key and a value, where a value is a
word that is no literal itself, or again such a tree. -/
inductive LiteralTree
  | nil
  | plain (key value : ClosedWord) (unopened : DictLiteral.body? value.1 = none)
      (rest : LiteralTree)
  | nested (key : ClosedWord) (inside rest : LiteralTree)

namespace LiteralTree

open DictLiteral

/-- The keys and values in turn, subtrees written out. -/
def words : LiteralTree → List Text
  | nil => []
  | plain k v _ rest => k.1 :: v.1 :: words rest
  | nested k inside rest => k.1 :: write (words inside) :: words rest

/-- **The literal of a tree.** -/
def render (t : LiteralTree) : Text := write t.words

/-- **The entries of a tree**, subtrees opened down to the given number of levels. -/
def entries : Nat → LiteralTree → List DictEntry
  | _, nil => []
  | levels, plain k v _ rest => keyed k.1 (.plain · v.1) ++ entries levels rest
  | 0, nested k inside rest => keyed k.1 (.plain · inside.render) ++ entries 0 rest
  | levels + 1, nested k inside rest =>
    keyed k.1 (.nested · inside.render (entries levels inside)) ++ entries (levels + 1) rest

/-- **All words of a tree are closed**, the subtrees written out among them. -/
theorem isClosedWord_of_mem_words : ∀ (t : LiteralTree), ∀ w ∈ t.words, IsClosedWord w
  | nil => by simp [words]
  | plain k v _ rest => by
    simpa [words] using ⟨k.2, v.2, isClosedWord_of_mem_words rest⟩
  | nested k inside rest => by
    simpa [words] using ⟨k.2, isClosedWord_write (isClosedWord_of_mem_words inside),
      isClosedWord_of_mem_words rest⟩

theorem body?_render (t : LiteralTree) : body? t.render = some (spaced t.words) :=
  body?_write t.isClosedWord_of_mem_words

/-- **The body of a written tree decodes to the entries of the tree**, whatever the number of levels
that are opened. -/
theorem entriesWithin_words : ∀ (t : LiteralTree) (levels : Nat),
    entriesWithin levels (spaced t.words) = t.entries levels
  | nil, levels => by cases levels <;> rfl
  | plain k v unopened rest, levels => by
    have ih := entriesWithin_words rest levels
    have hclosed := isClosedWord_of_mem_words (plain k v unopened rest)
    cases levels with
    | zero =>
      rw [entriesWithin] at ih ⊢
      rw [words, map_bodyPairs_spaced hclosed, ih]
      rfl
    | succ levels =>
      rw [entriesWithin] at ih ⊢
      rw [words, map_bodyPairs_spaced hclosed, ih, entries]
      simp only [unopened]
  | nested k inside rest, levels => by
    have ih := entriesWithin_words rest levels
    have hclosed := isClosedWord_of_mem_words (nested k inside rest)
    cases levels with
    | zero =>
      rw [entriesWithin] at ih ⊢
      rw [words, map_bodyPairs_spaced hclosed, ih]
      rfl
    | succ levels =>
      have hinside := entriesWithin_words inside levels
      rw [entriesWithin] at ih ⊢
      rw [words, map_bodyPairs_spaced hclosed, ih, entries]
      have hbody := body?_render inside
      rw [render] at hbody
      simp only [hbody, hinside]
      rfl

/-- **A written tree decodes to the tree**: the literal of a tree has a body, and the entries of
this body are, in order, the pairs of the tree whose key is an identifier when one layer of wrapping
is taken off, each with this key and the value as written, and with the entries of the subtree where
the value is one that lies not too deep. -/
theorem entries_render (t : LiteralTree) :
    (body? t.render).map DictLiteral.entries = some (t.entries maxNesting) := by
  rw [body?_render, Option.map_some, DictLiteral.entries, entriesWithin_words]

/-- Braces around a key are taken off, a key with a dollar is passed over together with its value,
and a subtree without pairs has no entries. -/
example :
    let t : LiteralTree :=
      .plain ⟨['{', 'a', '}'], by decide⟩ ⟨['1'], by decide⟩ (by decide)
        (.plain ⟨['$', 'b'], by decide⟩ ⟨['2'], by decide⟩ (by decide)
          (.nested ⟨['c'], by decide⟩ .nil .nil))
    t.render = "[dict create \x7ba\x7d 1 $b 2 c [dict create]]".toList ∧ t.entries maxNesting =
      [.plain ['a'] ['1'], .nested ['c'] "[dict create]".toList []] :=
  ⟨rfl, rfl⟩

end LiteralTree

end TclAtlas
