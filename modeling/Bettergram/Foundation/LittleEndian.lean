import Mathlib.Tactic.Ring
import Mathlib.Tactic.NormNum
import Mathlib.Tactic.Linarith

/-! # Fixed-width byte codes of natural numbers

A number is cut into exactly `w` bytes, least significant first. The
big-endian code of the same width is the reversed list.
-/

namespace Bettergram.Foundation

/-- The `w` low bytes of `n`, least significant first. -/
def leBytes : ℕ → ℕ → List UInt8
  | 0, _ => []
  | w + 1, n => UInt8.ofNat n :: leBytes w (n / 256)

/-- The number whose bytes, least significant first, are given. -/
def leNat : List UInt8 → ℕ
  | [] => 0
  | b :: bs => b.toNat + 256 * leNat bs

@[simp] theorem length_leBytes (w n : ℕ) : (leBytes w n).length = w := by
  induction w generalizing n with
  | zero => rfl
  | succ w ih => simp [leBytes, ih]

theorem leNat_lt (bs : List UInt8) : leNat bs < 256 ^ bs.length := by
  induction bs with
  | nil => simp [leNat]
  | cons b bs ih =>
    have hb : b.toNat < 256 := b.toNat_lt
    simp only [leNat, List.length_cons, pow_succ]
    omega

/-- Encoding keeps the number modulo the width of the field. -/
theorem leNat_leBytes (w n : ℕ) : leNat (leBytes w n) = n % 256 ^ w := by
  induction w generalizing n with
  | zero => simp [leBytes, leNat, Nat.mod_one]
  | succ w ih =>
    have hb : (UInt8.ofNat n).toNat = n % 256 := by simp
    rw [leBytes, leNat, ih, hb, pow_succ', Nat.mod_mul]

theorem leNat_leBytes_of_lt {w n : ℕ} (h : n < 256 ^ w) : leNat (leBytes w n) = n := by
  rw [leNat_leBytes, Nat.mod_eq_of_lt h]

/-- Every byte list is the code of its own number. -/
theorem leBytes_leNat (bs : List UInt8) : leBytes bs.length (leNat bs) = bs := by
  induction bs with
  | nil => rfl
  | cons b bs ih =>
    have hb : b.toNat < 256 := b.toNat_lt
    have hhead : UInt8.ofNat (b.toNat + 256 * leNat bs) = b := by
      apply UInt8.toNat_inj.mp
      simp only [UInt8.toNat_ofNat']
      omega
    have htail : (b.toNat + 256 * leNat bs) / 256 = leNat bs := by omega
    rw [List.length_cons, leBytes, leNat, hhead, htail, ih]

/-- Bytes above the width of the field do not matter. -/
theorem leBytes_mod (w n : ℕ) : leBytes w (n % 256 ^ w) = leBytes w n := by
  induction w generalizing n with
  | zero => rfl
  | succ w ih =>
    have hhead : UInt8.ofNat (n % 256 ^ (w + 1)) = UInt8.ofNat n := by
      apply UInt8.toNat_inj.mp
      simp only [UInt8.toNat_ofNat', pow_succ']
      exact Nat.mod_mul_right_mod n 256 (256 ^ w)
    have htail : n % 256 ^ (w + 1) / 256 = n / 256 % 256 ^ w := by
      rw [pow_succ', Nat.mod_mul_right_div_self]
    rw [leBytes, leBytes, hhead, htail, ih]

/-- A byte list of known length is determined by its number. -/
theorem eq_leBytes_of_leNat {w n : ℕ} {bs : List UInt8} (hw : bs.length = w)
    (hn : leNat bs = n % 256 ^ w) : bs = leBytes w n := by
  rw [← leBytes_leNat bs, hw, hn, leBytes_mod]

/-- A code in two fields. -/
theorem leBytes_add (w v n : ℕ) : leBytes (w + v) n = leBytes w n ++ leBytes v (n / 256 ^ w) := by
  induction w generalizing n with
  | zero => simp [leBytes]
  | succ w ih =>
    rw [Nat.succ_add, leBytes, leBytes, ih, Nat.div_div_eq_div_mul, ← pow_succ', List.cons_append]

end Bettergram.Foundation

/-! ## Bytes of 32-bit words

A buffer of words is read as bytes, the low byte of each word first, and bytes
are packed into words again.
-/

namespace Bettergram.Foundation

def wordBytes (w : Int32) : List UInt8 := leBytes 4 w.toUInt32.toNat

def bytesOfWords (ws : List Int32) : List UInt8 := ws.flatMap wordBytes

/-- Packs bytes four by four; what is left over is dropped. -/
def wordsOfBytes : List UInt8 → List Int32
  | a :: b :: c :: d :: bs => (UInt32.ofNat (leNat [a, b, c, d])).toInt32 :: wordsOfBytes bs
  | _ => []

@[simp] theorem length_bytesOfWords (ws : List Int32) : (bytesOfWords ws).length = 4 * ws.length := by
  induction ws with
  | nil => rfl
  | cons w ws ih =>
    rw [bytesOfWords, List.flatMap_cons, List.length_append, ← bytesOfWords, ih, wordBytes,
      length_leBytes, List.length_cons]
    omega

@[simp] theorem bytesOfWords_append (vs ws : List Int32) :
    bytesOfWords (vs ++ ws) = bytesOfWords vs ++ bytesOfWords ws :=
  List.flatMap_append

theorem take_bytesOfWords (ws : List Int32) (n : ℕ) :
    bytesOfWords (ws.take n) = (bytesOfWords ws).take (4 * n) := by
  conv_rhs => rw [← List.take_append_drop n ws, bytesOfWords_append]
  by_cases hn : n ≤ ws.length
  · rw [List.take_left' (by simp [hn])]
  · rw [List.take_of_length_le (not_le.mp hn).le, List.drop_of_length_le (not_le.mp hn).le]
    simp only [bytesOfWords, List.flatMap_nil, List.append_nil]
    rw [List.take_of_length_le]
    rw [← bytesOfWords, length_bytesOfWords]
    omega

theorem wordBytes_ofNat {bs : List UInt8} (h : bs.length = 4) :
    wordBytes (UInt32.ofNat (leNat bs)).toInt32 = bs := by
  have hlt := leNat_lt bs
  rw [h] at hlt
  have hnat : (UInt32.ofNat (leNat bs)).toNat = leNat bs := by
    rw [UInt32.toNat_ofNat', Nat.mod_eq_of_lt (by omega)]
  rw [wordBytes, UInt32.toUInt32_toInt32, hnat, ← h, leBytes_leNat]

/-- Whole words are packed and read back without loss. -/
theorem bytesOfWords_wordsOfBytes {bs : List UInt8} (h : 4 ∣ bs.length) :
    bytesOfWords (wordsOfBytes bs) = bs := by
  induction bs using wordsOfBytes.induct with
  | case1 a b c d bs ih =>
    rw [wordsOfBytes, bytesOfWords, List.flatMap_cons, ← bytesOfWords, ih (by simp at h; omega),
      wordBytes_ofNat rfl]
    rfl
  | case2 bs hshort =>
    match bs, h with
    | [], _ => rfl
    | [_], h => simp at h
    | [_, _], h => simp at h
    | [_, _, _], h => simp at h
    | a :: b :: c :: d :: bs, _ => exact absurd rfl (hshort a b c d bs)

theorem length_wordsOfBytes {bs : List UInt8} (h : 4 ∣ bs.length) :
    4 * (wordsOfBytes bs).length = bs.length := by
  rw [← length_bytesOfWords, bytesOfWords_wordsOfBytes h]

end Bettergram.Foundation
