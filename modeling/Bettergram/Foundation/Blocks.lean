import Mathlib.Data.List.Basic
import Mathlib.Tactic.Linarith

/-! # Consuming a stream block by block

`consume n step s xs` feeds the whole blocks of `n` elements at the front of
`xs` to `step` and leaves what does not fill a block. A stream may be fed in
pieces when each piece is put behind what the one before it left.
-/

namespace Bettergram.Foundation

variable {α σ : Type*} (n : ℕ) (step : σ → List α → σ)

def consumeFuel : ℕ → σ → List α → σ × List α
  | 0, s, xs => (s, xs)
  | fuel + 1, s, xs =>
    if n ≤ xs.length then consumeFuel fuel (step s (xs.take n)) (xs.drop n) else (s, xs)

def consume (s : σ) (xs : List α) : σ × List α := consumeFuel n step xs.length s xs

variable {n step}

theorem consumeFuel_of_lt {fuel : ℕ} {s : σ} {xs : List α} (h : xs.length < n) :
    consumeFuel n step fuel s xs = (s, xs) := by
  cases fuel with
  | zero => rfl
  | succ fuel => rw [consumeFuel, if_neg (not_le.mpr h)]

theorem consume_of_lt {s : σ} {xs : List α} (h : xs.length < n) : consume n step s xs = (s, xs) :=
  consumeFuel_of_lt h

/-- The fuel does not matter once it bounds the length. -/
theorem consumeFuel_eq (hn : 0 < n) {fuel k : ℕ} {s : σ} {xs : List α} (hfuel : xs.length ≤ fuel)
    (hk : xs.length ≤ k) : consumeFuel n step fuel s xs = consumeFuel n step k s xs := by
  induction k generalizing fuel s xs with
  | zero => rw [consumeFuel_of_lt (by omega), consumeFuel_of_lt (by omega)]
  | succ k ih =>
    by_cases hblock : n ≤ xs.length
    · obtain ⟨m, rfl⟩ : ∃ m, fuel = m + 1 := ⟨fuel - 1, by omega⟩
      have hdrop : (xs.drop n).length = xs.length - n := List.length_drop
      rw [consumeFuel, consumeFuel, if_pos hblock, if_pos hblock]
      exact ih (by omega) (by omega)
    · rw [consumeFuel_of_lt (not_le.mp hblock), consumeFuel_of_lt (not_le.mp hblock)]

theorem consume_of_le (hn : 0 < n) {s : σ} {xs : List α} (h : n ≤ xs.length) :
    consume n step s xs = consume n step (step s (xs.take n)) (xs.drop n) := by
  obtain ⟨k, hk⟩ : ∃ k, xs.length = k + 1 := ⟨xs.length - 1, by omega⟩
  rw [consume, hk, consumeFuel, if_pos h]
  exact consumeFuel_eq hn (by rw [List.length_drop]; omega) le_rfl

/-- One block at the front. -/
theorem consume_block (hn : 0 < n) {s : σ} {block xs : List α} (h : block.length = n) :
    consume n step s (block ++ xs) = consume n step (step s block) xs := by
  rw [consume_of_le hn (by simp [h]), List.take_left' h, List.drop_left' h]

theorem length_consume (hn : 0 < n) (s : σ) (xs : List α) :
    (consume n step s xs).2.length = xs.length % n := by
  induction hlength : xs.length using Nat.strong_induction_on generalizing s xs with
  | _ k ih =>
    by_cases hblock : n ≤ xs.length
    · rw [consume_of_le hn hblock, ih _ (by omega) _ (xs.drop n) List.length_drop, ← hlength,
        ← Nat.mod_eq_sub_mod hblock]
    · rw [consume_of_lt (not_le.mp hblock), ← hlength, Nat.mod_eq_of_lt (not_le.mp hblock)]

/-- What one piece leaves goes in front of the next. -/
theorem consume_append (hn : 0 < n) (s : σ) (xs ys : List α) :
    consume n step s (xs ++ ys) =
      consume n step (consume n step s xs).1 ((consume n step s xs).2 ++ ys) := by
  induction hlength : xs.length using Nat.strong_induction_on generalizing s xs with
  | _ k ih =>
    by_cases hblock : n ≤ xs.length
    · have hsplit : xs ++ ys = xs.take n ++ (xs.drop n ++ ys) := by
        rw [← List.append_assoc, List.take_append_drop]
      have htake : (xs.take n).length = n := List.length_take_of_le hblock
      rw [hsplit, consume_block hn htake, consume_of_le hn hblock]
      exact ih _ (by omega) _ (xs.drop n) List.length_drop
    · rw [consume_of_lt (not_le.mp hblock)]

/-- The whole blocks of a list, one after another. -/
def blocks (n : ℕ) (xs : List α) : List (List α) :=
  (List.range (xs.length / n)).map fun i => (xs.drop (n * i)).take n

theorem blocks_of_lt {xs : List α} (h : xs.length < n) : blocks n xs = [] := by
  rw [blocks, Nat.div_eq_of_lt h]
  rfl

theorem blocks_of_le (hn : 0 < n) {xs : List α} (h : n ≤ xs.length) :
    blocks n xs = xs.take n :: blocks n (xs.drop n) := by
  have hcount : xs.length / n = (xs.drop n).length / n + 1 := by
    rw [List.length_drop, Nat.div_eq_sub_div hn h]
  rw [blocks, hcount, List.range_succ_eq_map, List.map_cons, List.map_map]
  congr 1
  refine List.map_congr_left fun i _ => ?_
  rw [Function.comp_apply, List.drop_drop, Nat.mul_succ, Nat.add_comm]

/-- Consuming folds the step over the whole blocks. -/
theorem fst_consume (hn : 0 < n) (s : σ) (xs : List α) :
    (consume n step s xs).1 = (blocks n xs).foldl step s := by
  induction hlength : xs.length using Nat.strong_induction_on generalizing s xs with
  | _ k ih =>
    by_cases hblock : n ≤ xs.length
    · rw [consume_of_le hn hblock, blocks_of_le hn hblock, List.foldl_cons]
      exact ih _ (by omega) _ (xs.drop n) List.length_drop
    · rw [consume_of_lt (not_le.mp hblock), blocks_of_lt (not_le.mp hblock)]
      rfl

end Bettergram.Foundation
