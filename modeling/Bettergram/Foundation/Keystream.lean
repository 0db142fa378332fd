import Bettergram.Foundation.Overwrite

/-! # Stream ciphers addressed by position

The byte at position `p` is combined with the keystream byte `ks p`, so pieces
of a stream can be processed in any order and rewritten in place.
-/

namespace Bettergram.Foundation

/-- Combine a piece that starts at position `o` with its stretch of the keystream. -/
def xorAt (ks : ℕ → UInt8) : ℕ → List UInt8 → List UInt8
  | _, [] => []
  | o, b :: bs => (b ^^^ ks o) :: xorAt ks (o + 1) bs

variable (ks : ℕ → UInt8)

@[simp] theorem xorAt_nil (o : ℕ) : xorAt ks o [] = [] := rfl

@[simp] theorem length_xorAt (o : ℕ) (bs : List UInt8) : (xorAt ks o bs).length = bs.length := by
  induction bs generalizing o with
  | nil => rfl
  | cons b bs ih => simp [xorAt, ih]

/-- Decryption is the same operation as encryption. -/
@[simp] theorem xorAt_xorAt (o : ℕ) (bs : List UInt8) : xorAt ks o (xorAt ks o bs) = bs := by
  induction bs generalizing o with
  | nil => rfl
  | cons b bs ih => simp [xorAt, ih, UInt8.xor_assoc]

theorem xorAt_append (o : ℕ) (xs ys : List UInt8) :
    xorAt ks o (xs ++ ys) = xorAt ks o xs ++ xorAt ks (o + xs.length) ys := by
  induction xs generalizing o with
  | nil => simp
  | cons b xs ih =>
    simp only [List.cons_append, xorAt, ih, List.length_cons]
    rw [Nat.add_right_comm o 1, Nat.add_assoc o]

theorem take_xorAt (o n : ℕ) (bs : List UInt8) :
    (xorAt ks o bs).take n = xorAt ks o (bs.take n) := by
  induction bs generalizing o n with
  | nil => simp
  | cons b bs ih =>
    cases n with
    | zero => rfl
    | succ n => simp [xorAt, ih]

theorem drop_xorAt (o n : ℕ) (bs : List UInt8) :
    (xorAt ks o bs).drop n = xorAt ks (o + n) (bs.drop n) := by
  induction bs generalizing o n with
  | nil => simp
  | cons b bs ih =>
    cases n with
    | zero => rfl
    | succ n =>
      simp only [xorAt, List.drop_succ_cons, ih]
      rw [Nat.add_right_comm, Nat.add_assoc]

/-- A piece encrypted at its own position can be written over the encrypted stream. -/
theorem xorAt_overwrite (p : ℕ) (xs : List UInt8) {o : ℕ} (ys : List UInt8)
    (ho : o ≤ xs.length) :
    overwrite (xorAt ks p xs) o (xorAt ks (p + o) ys) = xorAt ks p (overwrite xs o ys) := by
  have hlen : (xs.take o).length = o := by simp [ho]
  simp only [overwrite, xorAt_append, take_xorAt, drop_xorAt, length_xorAt,
    List.length_append, hlen]

/-- Combining with a list of keystream bytes, position by position. -/
theorem zipWith_eq_xorAt {o : ℕ} {bs stream : List UInt8} (hlen : bs.length ≤ stream.length)
    (h : ∀ (i : ℕ) (hi : i < stream.length), stream[i] = ks (o + i)) :
    List.zipWith (· ^^^ ·) bs stream = xorAt ks o bs := by
  induction bs generalizing o stream with
  | nil => simp
  | cons b bs ih =>
    cases stream with
    | nil => simp at hlen
    | cons c stream =>
      have hhead : c = ks o := h 0 (by simp)
      have htail : ∀ (i : ℕ) (hi : i < stream.length), stream[i] = ks (o + 1 + i) := by
        intro i hi
        have hi' := h (i + 1) (by simpa using hi)
        rwa [← Nat.add_assoc, Nat.add_right_comm o] at hi'
      simp only [List.zipWith_cons_cons, xorAt, hhead]
      rw [ih (by simpa using hlen) htail]

end Bettergram.Foundation
