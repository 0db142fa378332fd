import Bettergram.Foundation.Utf8

/-! # Escaping a text byte by byte

The loop that the exports share: some ASCII bytes are written as others, and the
bytes of a line or a paragraph separator are recognised from the first of them.
-/

namespace Bettergram.Export.Output
open Foundation

/-- What is written for an ASCII byte that is not written as it is, and for the separators. -/
structure Escapes where
  table : UInt8 → Option (List Char)
  line : List Char
  paragraph : List Char
  table_ascii : ∀ ch : UInt8, 128 ≤ ch.toNat → table ch = none

def lineSeparator : Char := '\u2028'
def paragraphSeparator : Char := '\u2029'

/-- Two hexadecimal digits, as both exports write them. -/
def hexDigits (ch : UInt8) : List Char :=
  let left := ch.toNat % 16
  [Char.ofNat (48 + ch.toNat / 16),
    if 10 ≤ left then Char.ofNat (65 + (left - 10)) else Char.ofNat (48 + left)]

variable (e : Escapes)

/-- What is appended for `ch` with `rest` behind it. -/
def serializeByte (ch : UInt8) (rest : List UInt8) : List UInt8 :=
  match e.table ch with
  | some out => utf8 out
  | none =>
    if ch = 0xE2 ∧ 2 ≤ rest.length ∧ rest.getD 0 0 = 0x80 then
      if rest.getD 1 0 = 0xA8 then utf8 e.line
      else if rest.getD 1 0 = 0xA9 then utf8 e.paragraph
      else [ch]
    else [ch]

def serializeBytes : List UInt8 → List UInt8
  | [] => []
  | ch :: rest => serializeByte e ch rest ++ serializeBytes rest

/-- What a character becomes that is not a separator. -/
def escapedChar (c : Char) : List Char :=
  if c.toNat < 128 then (e.table (UInt8.ofNat c.toNat)).getD [c] else [c]

def escaped (text : List Char) : List Char := text.flatMap (escapedChar e)

def isSeparator (c : Char) : Bool := c = lineSeparator || c = paragraphSeparator

/-! ## A character -/

theorem toNat_byte {c : Char} (hc : c.toNat < 128) : (UInt8.ofNat c.toNat).toNat = c.toNat := by
  rw [UInt8.toNat_ofNat', Nat.mod_eq_of_lt (by omega)]

/-- An ASCII character is known by its byte. -/
theorem byte_eq_iff {c : Char} (hc : c.toNat < 128) (d : Char) (hd : d.toNat < 128 := by decide) :
    UInt8.ofNat c.toNat = UInt8.ofNat d.toNat ↔ c = d := by
  rw [← UInt8.toNat_inj, toNat_byte hc, toNat_byte hd]
  exact Char.toNat_inj

theorem byte_lt_iff {c : Char} (hc : c.toNat < 128) : UInt8.ofNat c.toNat < 0x20 ↔ c.toNat < 0x20 := by
  rw [UInt8.lt_iff_toNat_lt, toNat_byte hc]
  rfl

theorem ne_of_le {c : Char} (hc : 128 ≤ c.toNat) (d : Char) (hd : d.toNat < 128 := by decide) :
    c ≠ d := by
  rintro rfl
  omega

/-- A byte outside of ASCII is none of those that are tested for. -/
theorem byte_ne_of_le {ch : UInt8} (hch : 128 ≤ ch.toNat) (small : UInt8)
    (hsmall : small.toNat < 128 := by decide) : ch ≠ small := by
  rintro rfl
  omega

theorem not_byte_lt_of_le {ch : UInt8} (hch : 128 ≤ ch.toNat) : ¬ch < 0x20 := by
  rw [UInt8.lt_iff_toNat_lt]
  exact fun hlt => absurd (hlt.trans (by decide : (0x20 : UInt8).toNat < 128)) (not_lt.mpr hch)

@[simp] theorem serializeBytes_nil : serializeBytes e [] = [] := rfl

theorem serializeByte_of_ne {ch : UInt8} (hch : 128 ≤ ch.toNat) (hne : ch ≠ 0xE2)
    (rest : List UInt8) : serializeByte e ch rest = [ch] := by
  rw [serializeByte, e.table_ascii ch hch]
  exact if_neg fun h => hne h.1

/-- Bytes behind the first of a character are copied. -/
theorem serializeBytes_copied {bytes : List UInt8}
    (hbytes : ∀ b ∈ bytes, 128 ≤ b.toNat ∧ b ≠ 0xE2) (rest : List UInt8) :
    serializeBytes e (bytes ++ rest) = bytes ++ serializeBytes e rest := by
  induction bytes with
  | nil => rfl
  | cons b bytes ih =>
    rw [List.forall_mem_cons] at hbytes
    rw [List.cons_append, serializeBytes, serializeByte_of_ne e hbytes.1.1 hbytes.1.2,
      ih hbytes.2]
    rfl

theorem utf8_lineSeparator : String.utf8EncodeChar lineSeparator = [0xE2, 0x80, 0xA8] := by decide

theorem utf8_paragraphSeparator :
    String.utf8EncodeChar paragraphSeparator = [0xE2, 0x80, 0xA9] := by decide

/-- The bytes of a character behind the first one never begin a separator. -/
theorem tail_utf8EncodeChar {c : Char} (hc : 128 ≤ c.toNat) {b : UInt8} {bytes : List UInt8}
    (h : String.utf8EncodeChar c = b :: bytes) : ∀ b' ∈ bytes, 128 ≤ b'.toNat ∧ b' ≠ 0xE2 := by
  intro b' hb'
  refine ⟨le_of_mem_utf8EncodeChar hc b' (h ▸ List.mem_cons_of_mem _ hb'), ?_⟩
  rintro rfl
  obtain ⟨i, hi, hget⟩ := List.mem_iff_getElem.mp hb'
  have hsome : (String.utf8EncodeChar c)[i + 1]? = some 0xE2 := by
    rw [h, List.getElem?_cons_succ, List.getElem?_eq_getElem hi, hget]
  obtain ⟨hlt, hplace⟩ := List.getElem?_eq_some_iff.mp hsome
  have hfirst : (String.utf8EncodeChar c)[i + 1].IsUTF8FirstByte := by
    rw [hplace]
    decide
  exact absurd (UInt8.isUTF8FirstByte_getElem_utf8EncodeChar.mp hfirst) (by omega)

/-- The first byte of a character that is not a separator is copied too. -/
theorem serializeByte_first {c : Char} (hc : 128 ≤ c.toNat) (hsep : isSeparator c = false)
    {b : UInt8} {bytes : List UInt8} (h : String.utf8EncodeChar c = b :: bytes)
    (rest : List UInt8) : serializeByte e b (bytes ++ rest) = [b] := by
  rw [isSeparator, Bool.or_eq_false_iff, decide_eq_false_iff_not, decide_eq_false_iff_not] at hsep
  rw [serializeByte, e.table_ascii b (le_of_mem_utf8EncodeChar hc b (h ▸ List.mem_cons_self))]
  dsimp only
  split
  swap
  · rfl
  rename_i hfound
  obtain ⟨rfl, hlength, hsecond⟩ := hfound
  -- a separator that is found is the character itself
  have hchar : ∀ (third : UInt8) (d : Char), String.utf8EncodeChar d = [0xE2, 0x80, third] →
      (bytes ++ rest).getD 1 0 = third → c = d := by
    intro third d hd hthird
    generalize hall : bytes ++ rest = all at hlength hsecond hthird
    match all with
    | second :: last :: behind =>
      simp only [List.getD_cons_zero, List.getD_cons_succ] at hsecond hthird
      refine (utf8EncodeChar_append_inj (s := rest) (t := behind) ?_).1
      rw [h, hd, List.cons_append, hall, hsecond, hthird]
      rfl
  rw [if_neg fun hline => hsep.1 (hchar _ _ utf8_lineSeparator hline),
    if_neg fun hparagraph => hsep.2 (hchar _ _ utf8_paragraphSeparator hparagraph)]

/-- A character that is not a separator. -/
theorem serializeBytes_char {c : Char} (hsep : isSeparator c = false) (rest : List UInt8) :
    serializeBytes e (String.utf8EncodeChar c ++ rest) =
      utf8 (escapedChar e c) ++ serializeBytes e rest := by
  by_cases hc : c.toNat < 128
  · have hne : UInt8.ofNat c.toNat ≠ 0xE2 := by
      intro h
      have := congrArg UInt8.toNat h
      rw [toNat_byte hc] at this
      exact absurd hc (by rw [this]; decide)
    rw [utf8EncodeChar_of_lt hc, escapedChar, if_pos hc, List.cons_append, List.nil_append,
      serializeBytes, serializeByte]
    cases e.table (UInt8.ofNat c.toNat) with
    | some out => rfl
    | none =>
      dsimp only
      rw [if_neg fun h => hne h.1, Option.getD_none, utf8_cons, utf8EncodeChar_of_lt hc]
      rfl
  · rw [escapedChar, if_neg hc, utf8_cons, utf8_nil, List.append_nil]
    cases h : String.utf8EncodeChar c with
    | nil => exact absurd h (utf8EncodeChar_ne_nil c)
    | cons b bytes =>
      rw [List.cons_append, serializeBytes, serializeByte_first e (by omega) hsep h,
        serializeBytes_copied e (tail_utf8EncodeChar (by omega) h)]
      rfl

/-- The bytes of a separator behind the first one are copied. -/
theorem serializeBytes_separator {c : Char} (hsep : isSeparator c = true) (rest : List UInt8) :
    ∃ out third, serializeBytes e (String.utf8EncodeChar c ++ rest) =
      utf8 out ++ 0x80 :: third :: serializeBytes e rest := by
  have hcopied : ∀ third : UInt8, 128 ≤ third.toNat → third ≠ 0xE2 →
      serializeBytes e (0x80 :: third :: rest) = 0x80 :: third :: serializeBytes e rest := by
    intro third hhigh hne
    have hall : ∀ b ∈ [(0x80 : UInt8), third], 128 ≤ b.toNat ∧ b ≠ 0xE2 := by
      simp [hhigh, hne]
    exact serializeBytes_copied e hall rest
  rw [isSeparator, Bool.or_eq_true, decide_eq_true_eq, decide_eq_true_eq] at hsep
  obtain rfl | rfl := hsep
  · refine ⟨e.line, 0xA8, ?_⟩
    rw [utf8_lineSeparator, List.cons_append, List.cons_append, List.cons_append, List.nil_append,
      serializeBytes, hcopied _ (by decide) (by decide), serializeByte, e.table_ascii _ (by decide)]
    rfl
  · refine ⟨e.paragraph, 0xA9, ?_⟩
    rw [utf8_paragraphSeparator, List.cons_append, List.cons_append, List.cons_append,
      List.nil_append, serializeBytes, hcopied _ (by decide) (by decide), serializeByte,
      e.table_ascii _ (by decide)]
    rfl

/-! ## A text -/

theorem serializeBytes_utf8 {text : List Char} (h : ∀ c ∈ text, isSeparator c = false) :
    serializeBytes e (utf8 text) = utf8 (escaped e text) := by
  induction text with
  | nil => rfl
  | cons c text ih =>
    rw [List.forall_mem_cons] at h
    rw [utf8_cons, serializeBytes_char e h.1, ih h.2]
    simp only [escaped, List.flatMap_cons, utf8_append]

/-- What is written is UTF-8 exactly when there is no separator. -/
theorem isUtf8_serializeBytes_iff (text : List Char) (rest : List UInt8) :
    IsUtf8 (serializeBytes e (utf8 text) ++ rest) ↔
      (∀ c ∈ text, isSeparator c = false) ∧ IsUtf8 rest := by
  induction text with
  | nil => simp
  | cons c text ih =>
    rw [utf8_cons, List.forall_mem_cons]
    cases hsep : isSeparator c with
    | false =>
      rw [serializeBytes_char e hsep, List.append_assoc, isUtf8_append_iff, ih]
      simp
    | true =>
      obtain ⟨out, third, hout⟩ := serializeBytes_separator e hsep (utf8 text)
      rw [hout, List.append_assoc, isUtf8_append_iff, List.cons_append]
      exact iff_of_false (not_isUtf8_of_continuation (by decide) _) (by simp)

end Bettergram.Export.Output
