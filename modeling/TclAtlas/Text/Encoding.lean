import TclAtlas.Text.Basic

/-!
# Text/Encoding — texts as bytes

The system keeps names, paths and the contents of files as **bytes**.  Some bytes are the UTF-8
encoding of a text, and of one only (`Text.ofUtf8?_eq_some_iff`); others are of none.

All bytes can be **shown** as a text.  Where no character begins, a replacement character stands for
the longest part that could have begun one.  So bytes of different names may be shown alike, but not
those of texts, which are shown as they are (`Bytes.shown_utf8`).
-/

namespace TclAtlas

/-- **Bytes**, as the system has them. -/
abbrev Bytes := List UInt8

namespace Text

/-- **The bytes of a text** in UTF-8. -/
def utf8 (t : Text) : Bytes := t.flatMap String.utf8EncodeChar

/-- **The text that bytes are of**, if they are of one. -/
def ofUtf8? (bs : Bytes) : Option Text := (String.fromUTF8? bs.toByteArray).map String.toList

@[simp] theorem utf8_cons (c : Char) (t : Text) :
    utf8 (c :: t) = String.utf8EncodeChar c ++ utf8 t := rfl

theorem toByteArray_ofList (t : Text) : (String.ofList t).toByteArray = t.utf8.toByteArray :=
  String.toByteArray_ofList

/-- **Bytes are of a text** when they are its encoding. -/
theorem ofUtf8?_eq_some_iff {bs : Bytes} {t : Text} : ofUtf8? bs = some t ↔ bs = t.utf8 := by
  rw [ofUtf8?, String.fromUTF8?]
  constructor
  · intro h
    split at h
    · next hvalid =>
      obtain rfl := Option.some.inj h
      have hbytes : bs.toByteArray =
          (utf8 (String.fromUTF8 bs.toByteArray hvalid).toList).toByteArray := by
        rw [← toByteArray_ofList, String.ofList_toList]
        rfl
      simpa [List.data_toByteArray] using congrArg ByteArray.data hbytes
    · exact absurd h (by simp)
  · rintro rfl
    have hvalid : t.utf8.toByteArray.IsValidUTF8 :=
      toByteArray_ofList t ▸ (String.ofList t).isValidUTF8
    have hstring : String.fromUTF8 t.utf8.toByteArray hvalid = String.ofList t :=
      String.toByteArray_inj.mp (toByteArray_ofList t).symm
    rw [dif_pos hvalid, hstring]
    exact congrArg some String.toList_ofList

theorem utf8_inj {t u : Text} : t.utf8 = u.utf8 ↔ t = u := by
  refine ⟨fun h => ?_, congrArg utf8⟩
  have ht : ofUtf8? t.utf8 = some t := ofUtf8?_eq_some_iff.mpr rfl
  exact Option.some.inj (ht.symm.trans (ofUtf8?_eq_some_iff.mpr h))

end Text

namespace Bytes

/-! ## Showing bytes -/

/-- The character that stands for what is no part of a text. -/
def replacement : Char := Char.ofNat 0xFFFD

/-- The character that bytes begin with, if they begin with one. -/
def firstChar? (bs : Bytes) : Option Char := bs.toByteArray.utf8DecodeChar? 0

/-- Whether a byte goes on a character, but for the second one of some. -/
def continues (b : UInt8) : Bool := 0x80 ≤ b && b ≤ 0xBF

/-- Whether a byte can be the second one of a character of three or four bytes with the given first
one.  Some are ruled out: they would lead to characters that take fewer bytes, to surrogates, or
beyond the last character. -/
def canFollow (first second : UInt8) : Bool :=
  0xE0 ≤ first && first ≤ 0xF4 &&
    (if first = 0xE0 then 0xA0 else if first = 0xF0 then 0x90 else 0x80) ≤ second &&
    second ≤ (if first = 0xED then 0x9F else if first = 0xF4 then 0x8F else 0xBF)

/-- **How many bytes could begin a character** where none begins, but one at least. -/
def brokenLength : Bytes → Nat
  | first :: second :: bs =>
    if canFollow first second then
      if 0xF0 ≤ first && (bs.head?.any continues) then 3 else 2
    else 1
  | _ => 1

/-- The bytes shown, but for some at the start. -/
def shownAfter : Nat → Bytes → Text
  | _, [] => []
  | skipped + 1, _ :: bs => shownAfter skipped bs
  | 0, b :: bs =>
    match firstChar? (b :: bs) with
    | some c => c :: shownAfter (c.utf8Size - 1) bs
    | none => replacement :: shownAfter (brokenLength (b :: bs) - 1) bs

/-- **Bytes shown as a text.** -/
def shown (bs : Bytes) : Text := shownAfter 0 bs

theorem firstChar?_append (c : Char) (bs : Bytes) :
    firstChar? (String.utf8EncodeChar c ++ bs) = some c := by
  rw [firstChar?, List.toByteArray_append, ByteArray.utf8DecodeChar?_utf8EncodeChar_append]

theorem shownAfter_append : ∀ xs bs : Bytes, shownAfter xs.length (xs ++ bs) = shown bs
  | [], _ => rfl
  | _ :: xs, bs => shownAfter_append xs bs

/-- **A character at the start** is shown as it is. -/
theorem shown_append (c : Char) (bs : Bytes) :
    shown (String.utf8EncodeChar c ++ bs) = c :: shown bs := by
  have hfirst := firstChar?_append c bs
  have hlength : (String.utf8EncodeChar c).length = c.utf8Size := String.length_utf8EncodeChar c
  rcases hc : String.utf8EncodeChar c with _ | ⟨b, xs⟩ <;> rw [hc] at hfirst hlength
  · exact absurd hlength (Nat.ne_of_lt c.utf8Size_pos)
  · rw [List.cons_append] at hfirst ⊢
    have hrest : c.utf8Size - 1 = xs.length := by
      rw [← hlength, List.length_cons, Nat.add_sub_cancel]
    rw [shown, shownAfter, hfirst]
    simp only [hrest, shownAfter_append]

/-- **A text is shown as it is.** -/
@[simp] theorem shown_utf8 : ∀ t : Text, shown t.utf8 = t
  | [] => rfl
  | c :: t => by rw [Text.utf8_cons, shown_append, shown_utf8 t]

/-- A first byte without a second one, a character cut short after three bytes, and a surrogate: its
first two bytes cannot begin a character together. -/
example : shown [0x61, 0xC3, 0x62, 0xF0, 0x9F, 0x98, 0x63, 0xED, 0xA0, 0x80] =
    ['a', replacement, 'b', replacement, 'c', replacement, replacement, replacement] := by
  decide +kernel

end Bytes

end TclAtlas
