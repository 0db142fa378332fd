import Mathlib.Data.List.Basic
import Mathlib.Tactic.Linarith

/-! # Overwriting a stretch of a list in place

`overwrite xs o ys` is what a random-access file holds after `ys` is written at
offset `o`: the bytes before and after the stretch stay, and the file grows
when the stretch reaches past its end.
-/

namespace Bettergram.Foundation

variable {α β : Type*}

def overwrite (xs : List α) (o : ℕ) (ys : List α) : List α :=
  xs.take o ++ ys ++ xs.drop (o + ys.length)

@[simp] theorem overwrite_nil (xs : List α) (o : ℕ) : overwrite xs o [] = xs := by
  simp [overwrite]

theorem length_overwrite (xs : List α) {o : ℕ} (ys : List α) (ho : o ≤ xs.length) :
    (overwrite xs o ys).length = max xs.length (o + ys.length) := by
  simp only [overwrite, List.length_append, List.length_take, List.length_drop]
  omega

/-- A fixed prefix such as a file header is not touched. -/
theorem overwrite_append_left (pre xs : List α) (o : ℕ) (ys : List α) :
    overwrite (pre ++ xs) (pre.length + o) ys = pre ++ overwrite xs o ys := by
  have htake : pre.take (pre.length + o) = pre := List.take_of_length_le (by omega)
  have hdrop : pre.drop (pre.length + (o + ys.length)) = [] := by simp
  simp [overwrite, List.take_append, List.drop_append, Nat.add_assoc, htake, hdrop]

/-- Right behind a prefix the new bytes replace the front of the rest. -/
theorem overwrite_append (pre xs ys : List α) :
    overwrite (pre ++ xs) pre.length ys = pre ++ ys ++ xs.drop ys.length := by
  have h := overwrite_append_left pre xs 0 ys
  rw [Nat.add_zero] at h
  rw [h, overwrite, List.take_zero, List.nil_append, Nat.zero_add, List.append_assoc]

/-- The bytes up to the end of the stretch are the old prefix and the new bytes. -/
theorem take_overwrite (xs : List α) {o : ℕ} (ys : List α) (ho : o ≤ xs.length) :
    (overwrite xs o ys).take (o + ys.length) = xs.take o ++ ys := by
  have hlen : (xs.take o ++ ys).length = o + ys.length := by
    simp [ho]
  rw [overwrite, ← hlen, List.take_left']
  rfl

/-- The bytes after the stretch are the old ones. -/
theorem drop_overwrite (xs : List α) {o : ℕ} (ys : List α) (ho : o ≤ xs.length) :
    (overwrite xs o ys).drop (o + ys.length) = xs.drop (o + ys.length) := by
  have hlen : (xs.take o ++ ys).length = o + ys.length := by
    simp [ho]
  conv_lhs => rw [overwrite, ← hlen, List.drop_left' rfl]
  rw [hlen]

/-- Two writes in a row are one write of both pieces. -/
theorem overwrite_overwrite (xs : List α) {o : ℕ} (ys zs : List α) (ho : o ≤ xs.length) :
    overwrite (overwrite xs o ys) (o + ys.length) zs = overwrite xs o (ys ++ zs) := by
  have hdrop : (overwrite xs o ys).drop (o + ys.length + zs.length) =
      xs.drop (o + (ys ++ zs).length) := by
    rw [← List.drop_drop, drop_overwrite xs ys ho, List.drop_drop, List.length_append,
      Nat.add_assoc]
  rw [overwrite, take_overwrite xs ys ho, hdrop, overwrite, List.append_assoc (xs.take o)]

/-- Before the stretch nothing changes. -/
theorem take_overwrite_of_le (xs : List α) {o n : ℕ} (ys : List α) (hn : n ≤ o)
    (ho : o ≤ xs.length) : (overwrite xs o ys).take n = xs.take n := by
  have h : (xs.take o).take n = xs.take n := by
    rw [List.take_take, Nat.min_eq_left hn]
  rw [overwrite, List.append_assoc, List.take_append_of_le_length (by simp; omega), h]

/-- At the end of the list overwriting is appending. -/
theorem overwrite_length (xs ys : List α) : overwrite xs xs.length ys = xs ++ ys := by
  simp [overwrite]

/-- Inside the stretch are the new bytes, and the old ones elsewhere. -/
theorem getElem?_overwrite (xs : List α) {o : ℕ} (ys : List α) (ho : o ≤ xs.length) (i : ℕ) :
    (overwrite xs o ys)[i]? = if o ≤ i ∧ i < o + ys.length then ys[i - o]? else xs[i]? := by
  have hbefore : (xs.take o ++ ys).length = o + ys.length := by simp [ho]
  rw [overwrite]
  by_cases hin : i < o + ys.length
  · rw [List.getElem?_append_left (by rw [hbefore]; exact hin)]
    by_cases hbefore : i < o
    · rw [if_neg (by omega), List.getElem?_append_left (by simp; omega),
        List.getElem?_take_of_lt hbefore]
    · rw [if_pos ⟨by omega, hin⟩, List.getElem?_append_right (by simp; omega), List.length_take,
        Nat.min_eq_left ho]
  · rw [if_neg (by omega), List.getElem?_append_right (by rw [hbefore]; omega), hbefore,
      List.getElem?_drop]
    congr 1
    omega

end Bettergram.Foundation
