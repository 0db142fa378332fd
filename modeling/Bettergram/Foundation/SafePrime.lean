import Mathlib.NumberTheory.LegendreSymbol.QuadraticReciprocity

/-! # Powers modulo a safe prime

A prime is safe when half of what is before it is a prime too. A residue then has a
small order, or one that this half divides, and the squares are what has it as order.
Which small numbers are squares is seen from a few remainders.
-/

namespace Bettergram.Foundation

/-- A prime above 7 for which `(p - 1) / 2` is a prime as well. -/
structure SafePrime (p : ℕ) : Prop where
  prime : p.Prime
  half : ((p - 1) / 2).Prime
  large : 7 < p

/-! ## Squares modulo small primes -/

theorem isSquare_mod_three : ∀ r : Fin 3, r ≠ 0 →
    (IsSquare ((r.val : ℕ) : ZMod 3) ↔ r.val = 1) := by
  decide

theorem isSquare_mod_five : ∀ r : Fin 5, r ≠ 0 →
    (IsSquare ((r.val : ℕ) : ZMod 5) ↔ r.val = 1 ∨ r.val = 4) := by
  decide

theorem isSquare_mod_seven : ∀ r : Fin 7, r ≠ 0 →
    (IsSquare ((r.val : ℕ) : ZMod 7) ↔ r.val = 1 ∨ r.val = 2 ∨ r.val = 4) := by
  decide

namespace SafePrime

variable {p : ℕ} (h : SafePrime p)

include h

theorem half_odd : (p - 1) / 2 % 2 = 1 := by
  have hlarge := h.large
  apply (h.half.eq_two_or_odd).resolve_left
  intro htwo
  have hodd := (h.prime.eq_two_or_odd).resolve_left (by omega)
  omega

theorem eq_add_one : p = 2 * ((p - 1) / 2) + 1 := by
  have hodd := (h.prime.eq_two_or_odd).resolve_left (by have := h.large; omega)
  omega

theorem mod_four : p % 4 = 3 := by
  have hhalf := h.half_odd
  have heq := h.eq_add_one
  omega

theorem div_two : p / 2 = (p - 1) / 2 := by
  have heq := h.eq_add_one
  omega

theorem mod_ne_zero {n : ℕ} (htwo : 2 ≤ n) (hlarge : n ≤ 7) : p % n ≠ 0 := by
  intro hmod
  rcases (Nat.dvd_prime h.prime).mp (Nat.dvd_of_mod_eq_zero hmod) with rfl | rfl
  · omega
  · have := h.large
    omega

/-- The small numbers are neither 0 nor 1. -/
theorem cast_ne {n : ℕ} (htwo : 2 ≤ n) (hlarge : n ≤ 7) :
    (n : ZMod p) ≠ 0 ∧ (n : ZMod p) ≠ 1 := by
  have hp := h.large
  constructor
  · intro hzero
    have hdvd := Nat.le_of_dvd (by omega) ((ZMod.natCast_eq_zero_iff n p).mp hzero)
    omega
  · intro hone
    rw [← Nat.cast_one, ZMod.natCast_eq_natCast_iff', Nat.mod_eq_of_lt (by omega),
      Nat.mod_eq_of_lt (by omega)] at hone
    omega

/-! ## Orders -/

/-- The squares are what has the prime as order. -/
theorem orderOf_eq_iff {a : ZMod p} (hzero : a ≠ 0) (hone : a ≠ 1) :
    orderOf a = (p - 1) / 2 ↔ IsSquare a := by
  have : Fact p.Prime := ⟨h.prime⟩
  have : Fact ((p - 1) / 2).Prime := ⟨h.half⟩
  rw [ZMod.euler_criterion p hzero, orderOf_eq_prime_iff, h.div_two]
  exact and_iff_left hone

/-- What is not 0, 1 or -1 has an order that the prime divides. -/
theorem dvd_orderOf {a : ZMod p} (hzero : a ≠ 0) (hone : a ≠ 1) (hneg : a ≠ -1) :
    (p - 1) / 2 ∣ orderOf a := by
  have : Fact p.Prime := ⟨h.prime⟩
  by_contra hnot
  have hcoprime := (h.half.coprime_iff_not_dvd.mpr hnot).symm
  have hdvd : orderOf a ∣ 2 * ((p - 1) / 2) := by
    have hcard := ZMod.orderOf_dvd_card_sub_one hzero
    have heq := h.eq_add_one
    rwa [show p - 1 = 2 * ((p - 1) / 2) by omega] at hcard
  have htwo : a ^ 2 = 1 := orderOf_dvd_iff_pow_eq_one.mp (hcoprime.dvd_of_dvd_mul_right hdvd)
  rw [sq] at htwo
  rcases mul_self_eq_one_iff.mp htwo with heq | heq
  · exact hone heq
  · exact hneg heq

/-- The powers that the prime divides are trivial. -/
theorem not_dvd_of_pow_ne {a : ZMod p} {n : ℕ} (hzero : a ^ n ≠ 0) (hone : a ^ n ≠ 1)
    (hneg : a ^ n ≠ -1) : ¬(p - 1) / 2 ∣ n := by
  have : Fact p.Prime := ⟨h.prime⟩
  rintro ⟨k, rfl⟩
  have hbase : a ≠ 0 := by
    rintro rfl
    cases Nat.eq_zero_or_pos ((p - 1) / 2 * k) with
    | inl heq => exact hone (by rw [heq, pow_zero])
    | inr hpos => exact hzero (zero_pow hpos.ne')
  have heq := h.eq_add_one
  have hsquare : a ^ ((p - 1) / 2 * k) * a ^ ((p - 1) / 2 * k) = 1 := by
    rw [← pow_add, ← two_mul, ← mul_assoc, show 2 * ((p - 1) / 2) = p - 1 by omega, pow_mul,
      ZMod.pow_card_sub_one_eq_one hbase, one_pow]
  rcases mul_self_eq_one_iff.mp hsquare with heq | heq
  · exact hone heq
  · exact hneg heq

/-- Other powers of what is not trivial are not trivial. -/
theorem pow_ne {a : ZMod p} (hzero : a ≠ 0) (hone : a ≠ 1) (hneg : a ≠ -1) {n : ℕ}
    (hn : ¬(p - 1) / 2 ∣ n) : a ^ n ≠ 0 ∧ a ^ n ≠ 1 ∧ a ^ n ≠ -1 := by
  have : Fact p.Prime := ⟨h.prime⟩
  have hdvd := h.dvd_orderOf hzero hone hneg
  have hdouble : a ^ (n * 2) ≠ 1 := by
    intro hpow
    rcases h.half.dvd_mul.mp (hdvd.trans (orderOf_dvd_of_pow_eq_one hpow)) with hleft | hright
    · exact hn hleft
    · have hodd := h.half_odd
      have hle := Nat.le_of_dvd (by omega) hright
      have hpos := h.half.two_le
      omega
  refine ⟨pow_ne_zero n hzero, fun hpow => hdouble ?_, fun hpow => hdouble ?_⟩
  · rw [pow_mul, hpow, one_pow]
  · rw [pow_mul, hpow, neg_one_sq]

/-! ## Small squares -/

theorem isSquare_two : IsSquare ((2 : ℕ) : ZMod p) ↔ p % 8 = 7 := by
  have : Fact p.Prime := ⟨h.prime⟩
  have hmod := h.mod_four
  have hlarge := h.large
  rw [Nat.cast_ofNat, ZMod.exists_sq_eq_two_iff (by omega)]
  omega

theorem isSquare_three : IsSquare ((3 : ℕ) : ZMod p) ↔ p % 3 = 2 := by
  have : Fact p.Prime := ⟨h.prime⟩
  have : Fact (Nat.Prime 3) := ⟨Nat.prime_three⟩
  have hlarge := h.large
  have hne := h.mod_ne_zero (n := 3) (by omega) (by omega)
  rw [ZMod.exists_sq_eq_prime_iff_of_mod_four_eq_three h.mod_four (by decide) (by omega),
    ← ZMod.natCast_mod p 3]
  have hsquare := isSquare_mod_three ⟨p % 3, by omega⟩ (by simpa [Fin.ext_iff] using hne)
  apply (not_congr hsquare).trans
  simp only
  omega

omit h in
theorem isSquare_four (p : ℕ) : IsSquare ((4 : ℕ) : ZMod p) := ⟨2, by norm_num⟩

theorem isSquare_five : IsSquare ((5 : ℕ) : ZMod p) ↔ p % 5 = 1 ∨ p % 5 = 4 := by
  have : Fact p.Prime := ⟨h.prime⟩
  have : Fact (Nat.Prime 5) := ⟨Nat.prime_five⟩
  have hlarge := h.large
  have hne := h.mod_ne_zero (n := 5) (by omega) (by omega)
  rw [← ZMod.exists_sq_eq_prime_iff_of_mod_four_eq_one (by decide) (by omega),
    ← ZMod.natCast_mod p 5]
  exact isSquare_mod_five ⟨p % 5, by omega⟩ (by simpa [Fin.ext_iff] using hne)

theorem isSquare_six : IsSquare ((6 : ℕ) : ZMod p) ↔ p % 24 = 19 ∨ p % 24 = 23 := by
  have : Fact p.Prime := ⟨h.prime⟩
  have htwo := (h.cast_ne (n := 2) le_rfl (by omega)).1
  have hthree := (h.cast_ne (n := 3) (by omega) (by omega)).1
  have hsix := (h.cast_ne (n := 6) (by omega) (by omega)).1
  have hmul : legendreSym p (6 : ℕ) = legendreSym p (2 : ℕ) * legendreSym p (3 : ℕ) :=
    legendreSym.mul p 2 3
  have hsquares : IsSquare ((6 : ℕ) : ZMod p) ↔
      (IsSquare ((2 : ℕ) : ZMod p) ↔ IsSquare ((3 : ℕ) : ZMod p)) := by
    rw [← legendreSym.eq_one_iff' p hsix, ← legendreSym.eq_one_iff' p htwo,
      ← legendreSym.eq_one_iff' p hthree, hmul]
    rcases legendreSym.eq_one_or_neg_one p (a := (2 : ℕ)) (by exact_mod_cast htwo) with htwo' | htwo' <;>
      rcases legendreSym.eq_one_or_neg_one p (a := (3 : ℕ)) (by exact_mod_cast hthree)
        with hthree' | hthree' <;>
      rw [htwo', hthree'] <;> decide
  have hmod := h.mod_four
  have hne := h.mod_ne_zero (n := 3) (by omega) (by omega)
  rw [hsquares, h.isSquare_two, h.isSquare_three]
  omega

theorem isSquare_seven : IsSquare ((7 : ℕ) : ZMod p) ↔ p % 7 = 3 ∨ p % 7 = 5 ∨ p % 7 = 6 := by
  have : Fact p.Prime := ⟨h.prime⟩
  have : Fact (Nat.Prime 7) := ⟨by decide⟩
  have hlarge := h.large
  have hne := h.mod_ne_zero (n := 7) (by omega) (by omega)
  rw [ZMod.exists_sq_eq_prime_iff_of_mod_four_eq_three h.mod_four (by decide) (by omega),
    ← ZMod.natCast_mod p 7]
  have hsquare := isSquare_mod_seven ⟨p % 7, by omega⟩ (by simpa [Fin.ext_iff] using hne)
  apply (not_congr hsquare).trans
  simp only
  omega

end SafePrime

end Bettergram.Foundation
