import Mathlib.Data.Nat.Notation
import Mathlib.Data.List.Basic
import Mathlib.Order.Nat

/-! # Texts in UTF-8

The bytes of a character are prefix-free, so a text can be taken off its bytes from
the left, one character after the other.
-/

namespace Bettergram.Foundation

def utf8 (text : List Char) : List UInt8 := text.flatMap String.utf8EncodeChar

/-- The bytes are those of a text. -/
def IsUtf8 (bytes : List UInt8) : Prop := ∃ text, bytes = utf8 text

/-- The bytes of a text of ASCII characters. -/
def ascii (s : String) : List UInt8 := s.toList.map fun c => UInt8.ofNat c.toNat

@[simp] theorem utf8_nil : utf8 [] = [] := rfl

@[simp] theorem utf8_cons (c : Char) (text : List Char) :
    utf8 (c :: text) = String.utf8EncodeChar c ++ utf8 text := rfl

@[simp] theorem utf8_append (s t : List Char) : utf8 (s ++ t) = utf8 s ++ utf8 t :=
  List.flatMap_append

/-! ## The first character -/

theorem utf8DecodeChar_append (c : Char) (bytes : List UInt8) :
    (String.utf8EncodeChar c ++ bytes).toByteArray.utf8DecodeChar? 0 = some c := by
  rw [List.toByteArray_append]
  exact ByteArray.utf8DecodeChar?_utf8EncodeChar_append

theorem utf8EncodeChar_append_inj {c d : Char} {s t : List UInt8}
    (h : String.utf8EncodeChar c ++ s = String.utf8EncodeChar d ++ t) : c = d ∧ s = t := by
  have hchar : some c = some d := by
    rw [← utf8DecodeChar_append c s, h, utf8DecodeChar_append]
  obtain rfl := Option.some.inj hchar
  exact ⟨rfl, List.append_cancel_left h⟩

theorem utf8EncodeChar_ne_nil (c : Char) : String.utf8EncodeChar c ≠ [] := by
  intro h
  have := congrArg List.length h
  rw [String.length_utf8EncodeChar, List.length_nil] at this
  exact absurd this c.utf8Size_pos.ne'

theorem utf8_injective {s t : List Char} (h : utf8 s = utf8 t) : s = t := by
  induction s generalizing t with
  | nil =>
    cases t with
    | nil => rfl
    | cons d t => exact absurd (List.append_eq_nil_iff.mp h.symm).1 (utf8EncodeChar_ne_nil d)
  | cons c s ih =>
    cases t with
    | nil => exact absurd (List.append_eq_nil_iff.mp h).1 (utf8EncodeChar_ne_nil c)
    | cons d t =>
      obtain ⟨rfl, hrest⟩ := utf8EncodeChar_append_inj h
      rw [ih hrest]

@[simp] theorem isUtf8_utf8 (text : List Char) : IsUtf8 (utf8 text) := ⟨text, rfl⟩

/-- A character at the front does not matter. -/
theorem isUtf8_char_append_iff (c : Char) (bytes : List UInt8) :
    IsUtf8 (String.utf8EncodeChar c ++ bytes) ↔ IsUtf8 bytes := by
  constructor
  · rintro ⟨text, h⟩
    cases text with
    | nil => exact absurd (List.append_eq_nil_iff.mp h).1 (utf8EncodeChar_ne_nil c)
    | cons d text => exact ⟨text, (utf8EncodeChar_append_inj h).2⟩
  · rintro ⟨text, rfl⟩
    exact ⟨c :: text, rfl⟩

theorem isUtf8_append_iff (text : List Char) (bytes : List UInt8) :
    IsUtf8 (utf8 text ++ bytes) ↔ IsUtf8 bytes := by
  induction text with
  | nil => rfl
  | cons c text ih => rw [utf8_cons, List.append_assoc, isUtf8_char_append_iff, ih]

/-! ## Bytes of a character -/

theorem head_utf8EncodeChar (c : Char) {b : UInt8} {bytes : List UInt8}
    (h : String.utf8EncodeChar c = b :: bytes) : b.IsUTF8FirstByte := by
  have hzero : (String.utf8EncodeChar c)[0]? = some b := by rw [h, List.getElem?_cons_zero]
  obtain ⟨hlt, hget⟩ := List.getElem?_eq_some_iff.mp hzero
  exact hget ▸ UInt8.isUTF8FirstByte_getElem_utf8EncodeChar.mpr rfl

/-- No character begins with a continuation byte. -/
theorem not_isUtf8_of_continuation {b : UInt8} (hb : ¬b.IsUTF8FirstByte) (bytes : List UInt8) :
    ¬IsUtf8 (b :: bytes) := by
  rintro ⟨text, h⟩
  cases text with
  | nil => simp at h
  | cons c text =>
    cases hc : String.utf8EncodeChar c with
    | nil => exact utf8EncodeChar_ne_nil c hc
    | cons d rest =>
      rw [utf8_cons, hc, List.cons_append, List.cons.injEq] at h
      exact hb (h.1 ▸ head_utf8EncodeChar c hc)

/-- An ASCII character is one byte. -/
theorem utf8EncodeChar_of_lt {c : Char} (hc : c.toNat < 128) :
    String.utf8EncodeChar c = [UInt8.ofNat c.toNat] := by
  have hsize : c.utf8Size = 1 := Char.utf8Size_eq_one_iff.mpr (by
    rw [UInt32.le_iff_toNat_le]
    exact Nat.le_of_lt_succ hc)
  rw [String.utf8EncodeChar_eq_singleton hsize]
  rfl

theorem or_le_of_bits {x m : UInt8} (hm : 128 ≤ m.toNat) : 128 ≤ (x ||| m).toNat := by
  rw [UInt8.toNat_or]
  exact hm.trans Nat.right_le_or

/-- The bytes of any other character are outside of ASCII. -/
theorem le_of_mem_utf8EncodeChar {c : Char} (hc : 128 ≤ c.toNat) :
    ∀ b ∈ String.utf8EncodeChar c, 128 ≤ b.toNat := by
  obtain hone | htwo | hthree | hfour := c.utf8Size_eq
  · rw [Char.utf8Size_eq_one_iff, UInt32.le_iff_toNat_le] at hone
    exact absurd hc (not_le.mpr (Nat.lt_succ_of_le hone))
  · rw [String.utf8EncodeChar_eq_cons_cons htwo]
    simp only [List.forall_mem_cons, List.not_mem_nil, false_imp_iff, implies_true, and_true]
    exact ⟨or_le_of_bits (by decide), or_le_of_bits (by decide)⟩
  · rw [String.utf8EncodeChar_eq_cons_cons_cons hthree]
    simp only [List.forall_mem_cons, List.not_mem_nil, false_imp_iff, implies_true, and_true]
    exact ⟨or_le_of_bits (by decide), or_le_of_bits (by decide), or_le_of_bits (by decide)⟩
  · rw [String.utf8EncodeChar_eq_cons_cons_cons_cons hfour]
    simp only [List.forall_mem_cons, List.not_mem_nil, false_imp_iff, implies_true, and_true]
    exact ⟨or_le_of_bits (by decide), or_le_of_bits (by decide), or_le_of_bits (by decide),
      or_le_of_bits (by decide)⟩

end Bettergram.Foundation
