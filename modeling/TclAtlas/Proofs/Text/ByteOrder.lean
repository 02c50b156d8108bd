import TclAtlas.Text.Basic
import Mathlib.Data.Char
import Mathlib.Data.List.Lex
import Mathlib.Tactic.SplitIfs

/-!
# Proofs/Text/ByteOrder — sorting by code points is sorting by bytes

Texts are compared character by character.  A program that compares the UTF-8 bytes instead finds
the same order (`bytes_lt_iff`), because two encodings that differ do so in a byte that both have,
and there the larger character has the larger byte (`encode_append_lt`): the lead byte grows with
the size of the encoding, and within one size the bytes are the digits of the code point.
-/

namespace TclAtlas.Text

/-- **The UTF-8 bytes of a text.** -/
def bytes (t : Text) : List UInt8 := t.flatMap String.utf8EncodeChar

theorem ofNat_lt_ofNat {m n : Nat} (hm : m < 256) (hn : n < 256) :
    UInt8.ofNat m < UInt8.ofNat n ↔ m < n := by
  rw [UInt8.lt_ofNat_iff hn, UInt8.toNat_ofNat_of_lt' hm]

theorem ofNat_eq_ofNat {m n : Nat} (hm : m < 256) (hn : n < 256) :
    UInt8.ofNat m = UInt8.ofNat n ↔ m = n := by
  rw [← UInt8.toNat_inj, UInt8.toNat_ofNat_of_lt' hm, UInt8.toNat_ofNat_of_lt' hn]

/-- **The encodings of two characters decide how texts compare**, whatever follows them. -/
theorem encode_append_lt {c d : Char} (h : c < d) (s t : List UInt8) :
    String.utf8EncodeChar c ++ s < String.utf8EncodeChar d ++ t := by
  have hlt : c.val.toNat < d.val.toNat := h
  have hmax : d.val.toNat < 1114112 := by
    rcases d.valid with hd | ⟨-, hd⟩ <;> omega
  generalize hv : c.val.toNat = v at hlt
  generalize hw : d.val.toNat = w at hlt hmax
  -- digits to the base 64, taken off one after the other
  have htwo : ∀ n, n / 4096 = n / 64 / 64 := fun n => (Nat.div_div_eq_div_mul n 64 64).symm
  have hthree : ∀ n, n / 262144 = n / 64 / 64 / 64 := fun n => by
    rw [Nat.div_div_eq_div_mul, Nat.div_div_eq_div_mul]
  unfold String.utf8EncodeChar
  simp only [hv, hw, htwo, hthree]
  split_ifs <;>
    simp (disch := omega) only [List.cons_append, List.nil_append, List.cons_lt_cons_iff,
      ofNat_lt_ofNat, ofNat_eq_ofNat] <;>
    omega

theorem bytes_lt : ∀ {s t : Text}, s < t → bytes s < bytes t
  | [], [], h => absurd h (lt_irrefl _)
  | [], d :: t, _ => by
    obtain ⟨b, bs, hb⟩ := List.exists_cons_of_ne_nil (String.utf8EncodeChar_ne_nil (c := d))
    rw [bytes, bytes, List.flatMap_nil, List.flatMap_cons, hb, List.cons_append]
    exact List.nil_lt_cons b _
  | c :: s, [], h => absurd h (by simp)
  | c :: s, d :: t, h => by
    rw [bytes, bytes, List.flatMap_cons, List.flatMap_cons]
    rcases List.cons_lt_cons_iff.mp h with hcd | ⟨rfl, hst⟩
    · exact encode_append_lt hcd _ _
    · exact List.append_left_lt (bytes_lt hst)

/-- **Texts are ordered as their bytes are.** -/
theorem bytes_lt_iff {s t : Text} : bytes s < bytes t ↔ s < t := by
  refine ⟨fun h => ?_, bytes_lt⟩
  rcases lt_trichotomy s t with hst | rfl | hts
  · exact hst
  · exact absurd h (List.lt_irrefl _)
  · exact absurd h (List.lt_asymm (bytes_lt hts))

theorem le_eq_true_iff {s t : Text} : le s t = true ↔ s ≤ t := by simp [le]

end TclAtlas.Text
