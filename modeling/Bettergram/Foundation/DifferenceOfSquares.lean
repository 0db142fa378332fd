import Mathlib.Data.Nat.Prime.Basic
import Mathlib.Tactic.Ring
import Mathlib.Tactic.Linarith

/-! # Factors from a difference of squares

Where the rest of a square above `n` is a square itself, `n` is a product. For
two factors of one parity this is so at half of their sum, so that a search from
the square root of `n` on ends there at the latest.
-/

namespace Bettergram.Foundation

/-- The smallest number with a square that is not below `v`. -/
structure IsCeilSqrt (v c : ℕ) : Prop where
  le : v ≤ c * c
  lt : ∀ d < c, d * d < v

variable {v c m n a b x y : ℕ}

theorem IsCeilSqrt.le_of_le_mul_self (h : IsCeilSqrt v c) (hm : v ≤ m * m) : c ≤ m := by
  by_contra hlt
  exact absurd (h.lt m (by omega)) (by omega)

theorem IsCeilSqrt.eq_of_mul_self (h : IsCeilSqrt (m * m) c) : c = m :=
  le_antisymm (h.le_of_le_mul_self le_rfl) (Nat.mul_self_le_mul_self_iff.mp h.le)

theorem mul_eq_of_square_rest (h : x * x = n + y * y) : (x + y) * (x - y) = n := by
  rw [← Nat.mul_self_sub_mul_self_eq, h, Nat.add_sub_cancel]

/-- Half of the sum and half of the difference. -/
theorem half_sum_mul_self (hle : a ≤ b) (hparity : a % 2 = b % 2) :
    (a + b) / 2 * ((a + b) / 2) = a * b + (b - a) / 2 * ((b - a) / 2) := by
  obtain ⟨d, rfl⟩ : ∃ d, b = a + 2 * d := ⟨(b - a) / 2, by omega⟩
  have hsum : (a + (a + 2 * d)) / 2 = a + d := by omega
  have hdiff : (a + 2 * d - a) / 2 = d := by omega
  rw [hsum, hdiff]
  ring

/-- Up to half of the sum the root of the rest is at most half of the difference. -/
theorem ceilSqrt_rest_le (hle : a ≤ b) (hparity : a % 2 = b % 2) (hx : x ≤ (a + b) / 2)
    (hc : IsCeilSqrt (x * x - a * b) c) : c ≤ (b - a) / 2 := by
  refine hc.le_of_le_mul_self ?_
  have hsq := half_sum_mul_self hle hparity
  have hmul := Nat.mul_self_le_mul_self hx
  omega

theorem ceilSqrt_rest_half (hle : a ≤ b) (hparity : a % 2 = b % 2)
    (hc : IsCeilSqrt ((a + b) / 2 * ((a + b) / 2) - a * b) c) :
    c * c = (a + b) / 2 * ((a + b) / 2) - a * b := by
  rw [half_sum_mul_self hle hparity, Nat.add_sub_cancel_left] at hc ⊢
  rw [hc.eq_of_mul_self]

/-- The product of two different primes has no other factors. -/
theorem factors_eq_of_primes {p q : ℕ} (ha : a.Prime) (hb : b.Prime) (hab : a < b)
    (h : p * q = a * b) (hp : 1 < p) (hpq : p < q) : p = a ∧ q = b := by
  rcases ha.dvd_mul.mp ⟨b, h⟩ with ⟨k, rfl⟩ | ⟨k, rfl⟩
  · have hkq : k * q = b := Nat.eq_of_mul_eq_mul_left ha.pos (by rw [← h, Nat.mul_assoc])
    rcases hb.eq_one_or_self_of_dvd q ⟨k, by rw [← hkq, Nat.mul_comm]⟩ with rfl | rfl
    · omega
    · have hk : k = 1 := Nat.eq_of_mul_eq_mul_right hb.pos (by rw [hkq, Nat.one_mul])
      exact ⟨by rw [hk, Nat.mul_one], rfl⟩
  · have hpk : p * k = b :=
      Nat.eq_of_mul_eq_mul_left ha.pos (by rw [← h, Nat.mul_left_comm])
    rcases hb.eq_one_or_self_of_dvd p ⟨k, hpk.symm⟩ with rfl | rfl
    · omega
    · have hk : k = 1 := Nat.eq_of_mul_eq_mul_left hb.pos (by rw [hpk, Nat.mul_one])
      rw [hk] at hpq
      omega

theorem not_mul_self_of_primes (ha : a.Prime) (hb : b.Prime) (hab : a ≠ b) (m : ℕ) :
    m * m ≠ a * b := by
  intro h
  have hdvd : a ∣ m := (ha.dvd_mul.mp ⟨b, h⟩).elim id id
  obtain ⟨k, rfl⟩ := hdvd
  have hmul : k * k * a = b := by
    refine Nat.eq_of_mul_eq_mul_left ha.pos ?_
    rw [← h]
    ring
  exact hab ((Nat.prime_dvd_prime_iff_eq ha hb).mp ⟨k * k, by rw [← hmul]; ring⟩)

end Bettergram.Foundation
