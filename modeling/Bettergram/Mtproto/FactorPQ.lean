import Bettergram.Foundation.DifferenceOfSquares
import Bettergram.Foundation.LittleEndian
import Mathlib.Data.List.Induction

/-! # Factoring pq

The arithmetic is that of 64 bits. Along with each result goes a flag that is
false once an operation has left that range, so that a result with the flag is
one of whole numbers. The square root that floating point gives is only a place
to start from.
-/

namespace Bettergram.Mtproto
open Foundation

/-- The number that some bytes are, the most significant one first. -/
def beNat (bytes : List UInt8) : ℕ := leNat bytes.reverse

def addExact (a b : UInt64) : Bool := a.toNat + b.toNat < 2 ^ 64
def subExact (a b : UInt64) : Bool := b.toNat ≤ a.toNat
def mulExact (a b : UInt64) : Bool := a.toNat * b.toNat < 2 ^ 64

/-- The first of the two loops that correct a root. -/
def sqrtDown (v : UInt64) : ℕ → UInt64 → Bool → Option (UInt64 × Bool)
  | 0, _, _ => none
  | fuel + 1, s, exact =>
    let exact := exact && mulExact s s
    if v < s * s then sqrtDown v fuel (s - 1) (exact && subExact s 1) else some (s, exact)

def sqrtUp (v : UInt64) : ℕ → UInt64 → Bool → Option (UInt64 × Bool)
  | 0, _, _ => none
  | fuel + 1, s, exact =>
    let exact := exact && mulExact s s
    if s * s < v then sqrtUp v fuel (s + 1) (exact && addExact s 1) else some (s, exact)

variable (sqrtl : UInt64 → UInt64) (fuel : ℕ)

def correctedSqrt (v : UInt64) (exact : Bool) : Option (UInt64 × Bool) := do
  let (s, exact) ← sqrtDown v fuel (sqrtl v) exact
  sqrtUp v fuel s exact

/-- The loop over `pqSqrt`; the first result is `none` where the function returns false. -/
def searchPQ (pq : UInt64) : ℕ → UInt64 → Bool → Option (Option (UInt64 × UInt64) × Bool)
  | 0, _, _ => none
  | rounds + 1, pqSqrt, exact => do
    let ySqr := pqSqrt * pqSqrt - pq
    let exact := exact && mulExact pqSqrt pqSqrt && subExact (pqSqrt * pqSqrt) pq
    let (y, exact) ← correctedSqrt sqrtl fuel ySqr exact
    if ySqr = 0 then return (none, exact)
    let exact := exact && addExact y pqSqrt
    if pq ≤ y + pqSqrt then return (none, exact)
    let exact := exact && mulExact y y
    if y * y = ySqr then
      let p := pqSqrt + y
      let q := if y < pqSqrt then pqSqrt - y else y - pqSqrt
      return (some (p, q), exact)
    searchPQ pq rounds (pqSqrt + 1) (exact && addExact pqSqrt 1)

/-- The loop over the characters of `pqStr`. -/
def readPQ (pqStr : List UInt8) : UInt64 :=
  pqStr.foldl (fun pq c => pq <<< 8 ||| c.toUInt64) 0

/-- The loop that writes the last four bytes of a number, from the last one on. -/
def writeFour (p : UInt64) : List UInt8 :=
  ((List.range 4).foldl (fun (chars, p) i => (chars.set (3 - i) (p &&& 0xFF).toUInt8, p >>> 8))
    (List.replicate 4 0, p)).1

/-- `none` when some loop takes more than `fuel` rounds; the result is false or the two strings. -/
def parsePQ (pqStr : List UInt8) : Option (Option (List UInt8 × List UInt8) × Bool) :=
  if 8 < pqStr.length then some (none, true)
  else do
    let pq := readPQ pqStr
    let (pqSqrt, exact) ← correctedSqrt sqrtl fuel pq true
    let (found, exact) ← searchPQ sqrtl fuel pq fuel pqSqrt exact
    match found with
    | none => return (none, exact)
    | some (p, q) =>
      let (p, q) := if q < p then (q, p) else (p, q)
      return (some (writeFour p, writeFour q), exact)

example : parsePQ (fun v => v) 40 [0, 0, 0, 15] =
    some (some ([0, 0, 0, 3], [0, 0, 0, 5]), true) := by
  decide

end Bettergram.Mtproto

/-! ## What factoring pq gives

With a flag that is still true, the loops have found the root and the factors in
whole numbers. From roots below `2 ^ 32` on no operation leaves the range while
half the sum of two factors is not passed.
-/

namespace Bettergram.Mtproto
open Foundation

/-! ## The strings -/

theorem toNat_shift_or {v : UInt64} (h : v.toNat < 2 ^ 56) (c : UInt8) :
    (v <<< 8 ||| c.toUInt64).toNat = 256 * v.toNat + c.toNat := by
  have height : (8 : UInt64).toNat % 64 = 8 := rfl
  have hc : c.toNat < 2 ^ 8 := c.toNat_lt
  rw [UInt64.toNat_or, UInt64.toNat_shiftLeft, height, UInt8.toNat_toUInt64, Nat.shiftLeft_eq,
    Nat.mod_eq_of_lt (by omega), ← Nat.shiftLeft_eq, ← Nat.shiftLeft_add_eq_or_of_lt hc,
    Nat.shiftLeft_eq]
  omega

theorem beNat_concat (bytes : List UInt8) (c : UInt8) :
    beNat (bytes ++ [c]) = 256 * beNat bytes + c.toNat := by
  rw [beNat, List.reverse_append, List.reverse_singleton, List.singleton_append, leNat, beNat]
  omega

theorem readPQ_toNat {pqStr : List UInt8} (h : pqStr.length ≤ 8) :
    (readPQ pqStr).toNat = beNat pqStr := by
  induction pqStr using List.reverseRecOn with
  | nil => rfl
  | append_singleton bytes c ih =>
    rw [List.length_append, List.length_singleton] at h
    have hlt : beNat bytes < 2 ^ 56 := by
      have hbytes := leNat_lt bytes.reverse
      rw [List.length_reverse] at hbytes
      have hpow : 256 ^ bytes.length ≤ 256 ^ 7 := Nat.pow_le_pow_right (by decide) (by omega)
      exact lt_of_lt_of_le hbytes (hpow.trans (by decide))
    have hread := ih (by omega)
    rw [readPQ] at hread ⊢
    rw [List.foldl_append, List.foldl_cons, List.foldl_nil, beNat_concat, ← hread]
    exact toNat_shift_or (hread ▸ hlt) c

theorem lowByte_eq (p : UInt64) : (p &&& 0xFF).toUInt8 = UInt8.ofNat p.toNat := by
  apply UInt8.toNat_inj.mp
  have hff : (0xFF : UInt64).toNat = 2 ^ 8 - 1 := rfl
  rw [UInt64.toNat_toUInt8, UInt64.toNat_and, hff, Nat.and_two_pow_sub_one_eq_mod,
    UInt8.toNat_ofNat', Nat.mod_mod]

theorem toNat_shiftRight_eight (p : UInt64) : (p >>> 8).toNat = p.toNat / 256 := by
  have height : (8 : UInt64).toNat % 64 = 8 := rfl
  rw [UInt64.toNat_shiftRight, height, Nat.shiftRight_eq_div_pow]

theorem writeFour_eq (p : UInt64) : writeFour p = (leBytes 4 p.toNat).reverse := by
  have hloop : writeFour p = [(p >>> 8 >>> 8 >>> 8 &&& 0xFF).toUInt8,
      (p >>> 8 >>> 8 &&& 0xFF).toUInt8, (p >>> 8 &&& 0xFF).toUInt8, (p &&& 0xFF).toUInt8] := rfl
  rw [hloop]
  simp only [lowByte_eq, toNat_shiftRight_eight]
  rfl

/-- Only the last four bytes are left. -/
theorem beNat_writeFour (p : UInt64) : beNat (writeFour p) = p.toNat % 2 ^ 32 := by
  rw [writeFour_eq, beNat, List.reverse_reverse, leNat_leBytes]
  rfl

/-! ## The flag -/

theorem toNat_mul_of_exact {a b : UInt64} (h : mulExact a b = true) :
    (a * b).toNat = a.toNat * b.toNat := by
  rw [UInt64.toNat_mul, Nat.mod_eq_of_lt (by simpa [mulExact] using h)]

theorem toNat_add_of_exact {a b : UInt64} (h : addExact a b = true) :
    (a + b).toNat = a.toNat + b.toNat := by
  rw [UInt64.toNat_add, Nat.mod_eq_of_lt (by simpa [addExact] using h)]

theorem toNat_sub_of_exact {a b : UInt64} (h : subExact a b = true) :
    (a - b).toNat = a.toNat - b.toNat :=
  UInt64.toNat_sub_of_le _ _ (UInt64.le_iff_toNat_le.mpr (by simpa [subExact] using h))

variable {sqrtl : UInt64 → UInt64} {fuel : ℕ} {v s c pq : UInt64} {e : Bool}

theorem sqrtDown_exact (h : sqrtDown v fuel s e = some (c, true)) :
    e = true ∧ c.toNat * c.toNat ≤ v.toNat := by
  induction fuel generalizing s e with
  | zero => exact absurd h (by simp [sqrtDown])
  | succ fuel ih =>
    simp only [sqrtDown] at h
    split at h
    · obtain ⟨hflag, hle⟩ := ih h
      simp only [Bool.and_eq_true] at hflag
      exact ⟨hflag.1.1, hle⟩
    · rename_i hnot
      obtain ⟨rfl, hflag⟩ := Prod.mk.inj (Option.some.inj h)
      simp only [Bool.and_eq_true] at hflag
      rw [UInt64.lt_iff_toNat_lt, toNat_mul_of_exact hflag.2] at hnot
      exact ⟨hflag.1, not_lt.mp hnot⟩

theorem sqrtUp_flag (h : sqrtUp v fuel s e = some (c, true)) : e = true := by
  induction fuel generalizing s e with
  | zero => exact absurd h (by simp [sqrtUp])
  | succ fuel ih =>
    simp only [sqrtUp] at h
    split at h
    · have hflag := ih h
      simp only [Bool.and_eq_true] at hflag
      exact hflag.1.1
    · obtain ⟨-, hflag⟩ := Prod.mk.inj (Option.some.inj h)
      simp only [Bool.and_eq_true] at hflag
      exact hflag.1

theorem sqrtUp_exact (h : sqrtUp v fuel s e = some (c, true))
    (hbelow : ∀ d < s.toNat, d * d < v.toNat) : IsCeilSqrt v.toNat c.toNat := by
  induction fuel generalizing s e with
  | zero => exact absurd h (by simp [sqrtUp])
  | succ fuel ih =>
    simp only [sqrtUp] at h
    split at h
    · rename_i hlt
      have hflag := sqrtUp_flag h
      simp only [Bool.and_eq_true] at hflag
      rw [UInt64.lt_iff_toNat_lt, toNat_mul_of_exact hflag.1.2] at hlt
      refine ih h fun d hd => ?_
      rw [toNat_add_of_exact hflag.2] at hd
      exact lt_of_le_of_lt (Nat.mul_self_le_mul_self (Nat.lt_succ_iff.mp hd)) hlt
    · rename_i hnot
      obtain ⟨rfl, hflag⟩ := Prod.mk.inj (Option.some.inj h)
      simp only [Bool.and_eq_true] at hflag
      rw [UInt64.lt_iff_toNat_lt, toNat_mul_of_exact hflag.2] at hnot
      exact ⟨not_lt.mp hnot, hbelow⟩

/-- The corrected root is the smallest number with a square that is not below. -/
theorem correctedSqrt_exact (h : correctedSqrt sqrtl fuel v e = some (c, true)) :
    e = true ∧ IsCeilSqrt v.toNat c.toNat := by
  obtain ⟨⟨s, e'⟩, hdown, hup⟩ := Option.bind_eq_some_iff.mp h
  obtain rfl := sqrtUp_flag hup
  obtain ⟨hflag, hle⟩ := sqrtDown_exact hdown
  exact ⟨hflag, sqrtUp_exact hup fun d hd => lt_of_lt_of_le (Nat.mul_self_lt_mul_self hd) hle⟩

/-- One round, with the root `y` that it finds. -/
theorem searchPQ_round {rounds : ℕ} {x y : UInt64} {e' : Bool}
    (hroot : correctedSqrt sqrtl fuel (x * x - pq) (e && mulExact x x && subExact (x * x) pq) =
      some (y, e')) :
    searchPQ sqrtl fuel pq (rounds + 1) x e =
      if x * x - pq = 0 then some (none, e')
      else if pq ≤ y + x then some (none, e' && addExact y x)
      else if y * y = x * x - pq then
        some (some (x + y, if y < x then x - y else y - x), e' && addExact y x && mulExact y y)
      else searchPQ sqrtl fuel pq rounds (x + 1)
        (e' && addExact y x && mulExact y y && addExact x 1) := by
  rw [searchPQ, hroot]
  rfl

/-- What is found where the rest is a square. -/
theorem found_factors {x y : UInt64} (hmul : mulExact x x = true)
    (hsub : subExact (x * x) pq = true) (hadd : addExact y x = true) (hsqr : mulExact y y = true)
    (hless : ¬pq ≤ y + x) (hsquare : y * y = x * x - pq) (hrest : x * x - pq ≠ 0) :
    y < x ∧ (x + y).toNat * (x - y).toNat = pq.toNat ∧ 1 < (x - y).toNat ∧
      (x - y).toNat < (x + y).toNat := by
  have hxx := toNat_mul_of_exact hmul
  have hyx := toNat_add_of_exact hadd
  have hle : pq.toNat ≤ x.toNat * x.toNat := by
    rw [← hxx]
    simpa [subExact] using hsub
  have hsq := congrArg UInt64.toNat hsquare
  rw [toNat_mul_of_exact hsqr, toNat_sub_of_exact hsub, hxx] at hsq
  have hne : y.toNat ≠ 0 := by
    intro hzero
    refine hrest (UInt64.toNat_inj.mp ?_)
    rw [toNat_sub_of_exact hsub, hxx, ← hsq, hzero]
    rfl
  rw [UInt64.le_iff_toNat_le, hyx, not_le] at hless
  have hlt : y.toNat < x.toNat := Nat.mul_self_lt_mul_self_iff.mp (by omega)
  have hsubxy : (x - y).toNat = x.toNat - y.toNat :=
    UInt64.toNat_sub_of_le _ _ (UInt64.le_iff_toNat_le.mpr hlt.le)
  have haddxy : (x + y).toNat = x.toNat + y.toNat := by rw [UInt64.add_comm, hyx, Nat.add_comm]
  have hproduct : (x.toNat + y.toNat) * (x.toNat - y.toNat) = pq.toNat :=
    mul_eq_of_square_rest (by omega)
  rw [hsubxy, haddxy]
  refine ⟨UInt64.lt_iff_toNat_lt.mpr hlt, hproduct, ?_, by omega⟩
  by_contra hone
  have hdiff : x.toNat - y.toNat = 1 := by omega
  rw [hdiff] at hproduct
  omega

/-- What a search that stays in the range finds is a factorization. -/
theorem searchPQ_exact {rounds : ℕ} {x p q : UInt64}
    (h : searchPQ sqrtl fuel pq rounds x e = some (some (p, q), true)) :
    e = true ∧ p.toNat * q.toNat = pq.toNat ∧ 1 < q.toNat ∧ q.toNat < p.toNat := by
  induction rounds generalizing x e with
  | zero => exact absurd h (by simp [searchPQ])
  | succ rounds ih =>
    obtain ⟨⟨y, e'⟩, hroot, -⟩ := Option.bind_eq_some_iff.mp h
    rw [searchPQ_round hroot] at h
    split at h
    · exact absurd h (by simp)
    · rename_i hrest
      split at h
      · exact absurd h (by simp)
      · rename_i hless
        split at h
        · rename_i hsquare
          obtain ⟨hfound, hflag⟩ := Prod.mk.inj (Option.some.inj h)
          simp only [Bool.and_eq_true] at hflag
          obtain ⟨⟨rfl, hadd⟩, hsqr⟩ := hflag
          have hflag := (correctedSqrt_exact hroot).1
          simp only [Bool.and_eq_true] at hflag
          obtain ⟨hlt, hfactors⟩ := found_factors hflag.1.2 hflag.2 hadd hsqr hless hsquare hrest
          obtain ⟨rfl, rfl⟩ := Prod.mk.inj (Option.some.inj hfound)
          rw [if_pos hlt]
          exact ⟨hflag.1.1, hfactors⟩
        · obtain ⟨hflag, hfactors⟩ := ih h
          simp only [Bool.and_eq_true] at hflag
          obtain ⟨⟨⟨rfl, -⟩, -⟩, -⟩ := hflag
          have hflag := (correctedSqrt_exact hroot).1
          simp only [Bool.and_eq_true] at hflag
          exact ⟨hflag.1.1, hfactors⟩

/-! ## Staying in the range -/

/-- The largest number that has its root below `2 ^ 32`. -/
def maxSquare : ℕ := (2 ^ 32 - 1) * (2 ^ 32 - 1)

theorem mulExact_of_lt (h : s.toNat < 2 ^ 32) : mulExact s s = true := by
  have hlt : s.toNat * s.toNat < 2 ^ 32 * 2 ^ 32 := Nat.mul_self_lt_mul_self h
  simpa [mulExact] using hlt

theorem sqrtDown_returns (hs : s.toNat < 2 ^ 32) (hfuel : s.toNat < fuel) :
    ∃ c, sqrtDown v fuel s e = some (c, e) ∧ c.toNat * c.toNat ≤ v.toNat := by
  induction fuel generalizing s with
  | zero => exact absurd hfuel (Nat.not_lt_zero _)
  | succ fuel ih =>
    have hmul := mulExact_of_lt hs
    simp only [sqrtDown, hmul, Bool.and_true]
    split
    · rename_i hlt
      rw [UInt64.lt_iff_toNat_lt, toNat_mul_of_exact hmul] at hlt
      have hpos : 1 ≤ s.toNat := by
        by_contra hzero
        have hszero : s.toNat = 0 := by omega
        rw [hszero] at hlt
        omega
      have hsub : subExact s 1 = true := by simpa [subExact] using hpos
      have hpred : (s - 1).toNat = s.toNat - 1 := toNat_sub_of_exact hsub
      rw [hsub, Bool.and_true]
      exact ih (by omega) (by omega)
    · rename_i hnot
      rw [UInt64.lt_iff_toNat_lt, toNat_mul_of_exact hmul] at hnot
      exact ⟨s, rfl, not_lt.mp hnot⟩

theorem sqrtUp_returns (hv : v.toNat ≤ maxSquare) (hbelow : ∀ d < s.toNat, d * d < v.toNat)
    (hfuel : 2 ^ 32 ≤ fuel + s.toNat) :
    ∃ c, sqrtUp v fuel s e = some (c, e) ∧ IsCeilSqrt v.toNat c.toNat := by
  have hs : s.toNat < 2 ^ 32 := by
    by_contra hge
    exact absurd (hbelow (2 ^ 32 - 1) (by omega)) (not_lt.mpr hv)
  induction fuel generalizing s with
  | zero => omega
  | succ fuel ih =>
    have hmul := mulExact_of_lt hs
    simp only [sqrtUp, hmul, Bool.and_true]
    split
    · rename_i hlt
      rw [UInt64.lt_iff_toNat_lt, toNat_mul_of_exact hmul] at hlt
      have hadd : addExact s 1 = true := by
        simp only [addExact, decide_eq_true_eq]
        exact (Nat.add_lt_add_right hs 1).trans (by decide)
      have hsucc : (s + 1).toNat = s.toNat + 1 := toNat_add_of_exact hadd
      have hbelow' : ∀ d < (s + 1).toNat, d * d < v.toNat := fun d hd =>
        lt_of_le_of_lt (Nat.mul_self_le_mul_self (by omega)) hlt
      have hs' : (s + 1).toNat < 2 ^ 32 := by
        by_contra hge
        exact absurd (hbelow' (2 ^ 32 - 1) (by omega)) (not_lt.mpr hv)
      rw [hadd, Bool.and_true]
      exact ih hbelow' (by omega) hs'
    · rename_i hnot
      rw [UInt64.lt_iff_toNat_lt, toNat_mul_of_exact hmul] at hnot
      exact ⟨s, rfl, not_lt.mp hnot, hbelow⟩

/-- An approximation from which the loops reach the root without leaving the range. -/
def Approximates (sqrtl : UInt64 → UInt64) : Prop :=
  ∀ v : UInt64, v.toNat ≤ maxSquare → (sqrtl v).toNat < 2 ^ 32

theorem correctedSqrt_returns (hsqrtl : Approximates sqrtl)
    (hv : v.toNat ≤ maxSquare) (hfuel : 2 ^ 32 ≤ fuel) (e : Bool) :
    ∃ c, correctedSqrt sqrtl fuel v e = some (c, e) ∧ IsCeilSqrt v.toNat c.toNat := by
  have hstart := hsqrtl v hv
  obtain ⟨s, hdown, hle⟩ := sqrtDown_returns (v := v) (e := e) hstart (hstart.trans_le hfuel)
  obtain ⟨c, hup, hc⟩ := sqrtUp_returns (e := e) hv
    (fun d hd => lt_of_lt_of_le (Nat.mul_self_lt_mul_self hd) hle)
    (hfuel.trans (Nat.le_add_right _ _))
  refine ⟨c, ?_, hc⟩
  rw [correctedSqrt, hdown]
  exact hup

/-- With two factors of one parity the search ends at half of their sum at the latest. -/
theorem searchPQ_returns {a b rounds : ℕ} {x : UInt64}
    (hsqrtl : Approximates sqrtl) (hfuel : 2 ^ 32 ≤ fuel)
    (hpq : pq.toNat = a * b) (ha : 1 < a) (hab : a < b) (hparity : a % 2 = b % 2)
    (hsum : (a + b) / 2 < 2 ^ 32) (hsquare : ∀ m, m * m ≠ a * b) (hle : a * b ≤ x.toNat * x.toNat)
    (hx : x.toNat ≤ (a + b) / 2) (hrounds : (a + b) / 2 < rounds + x.toNat) :
    ∃ p q, searchPQ sqrtl fuel pq rounds x e = some (some (p, q), e) := by
  induction rounds generalizing x with
  | zero => omega
  | succ rounds ih =>
    have hxlt : x.toNat < 2 ^ 32 := by omega
    have hmul := mulExact_of_lt hxlt
    have hxx := toNat_mul_of_exact hmul
    have hsub : subExact (x * x) pq = true := by simpa [subExact, hxx, hpq] using hle
    have hrest : (x * x - pq).toNat = x.toNat * x.toNat - a * b := by
      rw [toNat_sub_of_exact hsub, hxx, hpq]
    have hmax : (x * x - pq).toNat ≤ maxSquare := by
      rw [hrest]
      exact (Nat.sub_le _ _).trans (Nat.mul_self_le_mul_self (by omega))
    obtain ⟨y, hroot, hy⟩ := correctedSqrt_returns hsqrtl hmax hfuel e
    rw [hrest] at hy
    have hroot' : correctedSqrt sqrtl fuel (x * x - pq)
        (e && mulExact x x && subExact (x * x) pq) = some (y, e) := by
      rw [hmul, hsub, Bool.and_true, Bool.and_true, hroot]
    have hyle : y.toNat ≤ (b - a) / 2 := ceilSqrt_rest_le hab.le hparity hx hy
    have hadd : addExact y x = true := by
      simp only [addExact, decide_eq_true_eq]
      omega
    have hyx := toNat_add_of_exact hadd
    have hbab : b < a * b := by
      calc b = 1 * b := (Nat.one_mul b).symm
        _ < a * b := Nat.mul_lt_mul_of_pos_right ha (by omega)
    have hne : x * x - pq ≠ 0 := by
      intro hzero
      have hsq := hsquare x.toNat
      rw [hzero] at hrest
      have hz : (0 : UInt64).toNat = 0 := rfl
      omega
    have hless : ¬pq ≤ y + x := by
      rw [UInt64.le_iff_toNat_le, hyx, hpq]
      omega
    have hsqr : mulExact y y = true := mulExact_of_lt (by omega)
    rw [searchPQ_round hroot', if_neg hne, if_neg hless, hadd, hsqr, Bool.and_true, Bool.and_true]
    split
    · exact ⟨_, _, rfl⟩
    · rename_i hnot
      have hxne : x.toNat ≠ (a + b) / 2 := by
        intro hhalf
        rw [hhalf] at hy hrest
        refine hnot (UInt64.toNat_inj.mp ?_)
        rw [toNat_mul_of_exact hsqr, hrest]
        exact ceilSqrt_rest_half hab.le hparity hy
      have hone : addExact x 1 = true := by
        simp only [addExact, decide_eq_true_eq]
        exact (Nat.add_lt_add_right hxlt 1).trans (by decide)
      have hsucc : (x + 1).toNat = x.toNat + 1 := toNat_add_of_exact hone
      rw [hone, Bool.and_true]
      refine ih ?_ (by omega) (by omega)
      rw [hsucc]
      exact hle.trans (Nat.mul_self_le_mul_self (Nat.le_succ _))

/-! ## The strings that are returned -/

/-- What is written for the two numbers that were found. -/
theorem parsePQ_of_found {pqStr : List UInt8} {x p q : UInt64} {e' : Bool}
    (hlen : pqStr.length ≤ 8) (hroot : correctedSqrt sqrtl fuel (readPQ pqStr) true = some (x, e))
    (hfound : searchPQ sqrtl fuel (readPQ pqStr) fuel x e = some (some (p, q), e'))
    (hqp : q.toNat < p.toNat) :
    parsePQ sqrtl fuel pqStr = some (some (writeFour q, writeFour p), e') := by
  rw [parsePQ, if_neg (not_lt.mpr hlen)]
  simp only [Option.bind_eq_bind, hroot, Option.bind_some, hfound,
    if_pos (UInt64.lt_iff_toNat_lt.mpr hqp)]
  rfl

/-- A result with the flag is the last four bytes of two factors. -/
theorem parsePQ_factors {pqStr p q : List UInt8}
    (h : parsePQ sqrtl fuel pqStr = some (some (p, q), true)) :
    ∃ P Q, P * Q = beNat pqStr ∧ 1 < P ∧ P < Q ∧ beNat p = P % 2 ^ 32 ∧ beNat q = Q % 2 ^ 32 := by
  have hlen : pqStr.length ≤ 8 := by
    by_contra hlong
    rw [parsePQ, if_pos (not_le.mp hlong)] at h
    exact absurd h (by simp)
  have hunfold := h
  rw [parsePQ, if_neg (not_lt.mpr hlen)] at hunfold
  obtain ⟨⟨x, e⟩, hroot, hrest⟩ := Option.bind_eq_some_iff.mp hunfold
  obtain ⟨⟨found, e'⟩, hfound, hrest⟩ := Option.bind_eq_some_iff.mp hrest
  cases found with
  | none => exact absurd hrest (by simp)
  | some factors =>
    obtain ⟨P, Q⟩ := factors
    obtain ⟨-, rfl⟩ := Prod.mk.inj (Option.some.inj hrest)
    obtain ⟨-, hproduct, hone, hlt⟩ := searchPQ_exact hfound
    have hresult := parsePQ_of_found hlen hroot hfound hlt
    obtain ⟨hstrings, -⟩ := Prod.mk.inj (Option.some.inj (h.symm.trans hresult))
    obtain ⟨rfl, rfl⟩ := Prod.mk.inj (Option.some.inj hstrings)
    rw [readPQ_toNat hlen, Nat.mul_comm] at hproduct
    exact ⟨Q.toNat, P.toNat, hproduct, hone, hlt, beNat_writeFour Q, beNat_writeFour P⟩

/-- For two different odd primes of 32 bits the factors are these. -/
theorem parsePQ_returns {pqStr : List UInt8} {a b : ℕ} (hsqrtl : Approximates sqrtl)
    (hfuel : 2 ^ 32 ≤ fuel) (hlen : pqStr.length ≤ 8) (ha : a.Prime) (hb : b.Prime)
    (hodd : a % 2 = 1 ∧ b % 2 = 1) (hab : a < b) (hlt : b < 2 ^ 32) (hpq : beNat pqStr = a * b) :
    ∃ p q, parsePQ sqrtl fuel pqStr = some (some (p, q), true) ∧ beNat p = a ∧ beNat q = b := by
  have hparity : a % 2 = b % 2 := hodd.1.trans hodd.2.symm
  have hread : (readPQ pqStr).toNat = a * b := (readPQ_toNat hlen).trans hpq
  have hmax : (readPQ pqStr).toNat ≤ maxSquare := by
    rw [hread]
    exact Nat.mul_le_mul (by omega) (by omega)
  obtain ⟨x, hroot, hx⟩ := correctedSqrt_returns hsqrtl hmax hfuel true
  rw [hread] at hx
  have hxle : x.toNat ≤ (a + b) / 2 := by
    refine hx.le_of_le_mul_self ?_
    rw [half_sum_mul_self hab.le hparity]
    exact Nat.le_add_right _ _
  have hrounds : (a + b) / 2 < fuel + x.toNat := by omega
  obtain ⟨p, q, hfound⟩ := searchPQ_returns (e := true) hsqrtl hfuel hread ha.one_lt hab hparity
    (by omega) (not_mul_self_of_primes ha hb hab.ne) hx.le hxle hrounds
  obtain ⟨-, hproduct, hone, hqp⟩ := searchPQ_exact hfound
  rw [hread, Nat.mul_comm] at hproduct
  obtain ⟨rfl, rfl⟩ := factors_eq_of_primes ha hb hab hproduct hone hqp
  refine ⟨_, _, parsePQ_of_found hlen hroot hfound hqp, ?_, ?_⟩
  · rw [beNat_writeFour, Nat.mod_eq_of_lt (by omega)]
  · rw [beNat_writeFour, Nat.mod_eq_of_lt hlt]

/-- A result without overflow is the last four bytes of a factorization; and for the product of two
different odd primes below `2 ^ 32` there is one, with the primes. -/
theorem parsePQ_honest (sqrtl : UInt64 → UInt64) (hsqrtl : Approximates sqrtl) :
    (∀ (fuel : ℕ) (pqStr p q : List UInt8), parsePQ sqrtl fuel pqStr = some (some (p, q), true) →
      ∃ P Q, P * Q = beNat pqStr ∧ 1 < P ∧ P < Q ∧ beNat p = P % 2 ^ 32 ∧ beNat q = Q % 2 ^ 32) ∧
    ∀ (pqStr : List UInt8) (a b : ℕ), pqStr.length ≤ 8 → a.Prime → b.Prime →
      a % 2 = 1 ∧ b % 2 = 1 → a < b → b < 2 ^ 32 → beNat pqStr = a * b →
      ∀ fuel, 2 ^ 32 ≤ fuel → ∃ p q, parsePQ sqrtl fuel pqStr = some (some (p, q), true) ∧
        beNat p * beNat q = beNat pqStr ∧ 1 < beNat p ∧ beNat p < beNat q := by
  refine ⟨fun _ _ _ _ => parsePQ_factors, ?_⟩
  intro pqStr a b hlen ha hb hodd hab hlt hpq fuel hfuel
  obtain ⟨p, q, hparse, hp, hq⟩ := parsePQ_returns hsqrtl hfuel hlen ha hb hodd hab hlt hpq
  refine ⟨p, q, hparse, ?_, ?_, ?_⟩
  · rw [hp, hq, hpq]
  · rw [hp]
    exact ha.one_lt
  · rw [hp, hq]
    exact hab

def floorSqrt (v : UInt64) : UInt64 := UInt64.ofNat v.toNat.sqrt

theorem approximates_floorSqrt : Approximates floorSqrt := by
  intro v hv
  have hsqrt : v.toNat.sqrt < 2 ^ 32 := by
    refine Nat.sqrt_lt'.mpr ?_
    have hmax : maxSquare < (2 ^ 32) ^ 2 := by decide
    omega
  rw [floorSqrt, UInt64.toNat_ofNat', Nat.mod_eq_of_lt (by omega)]
  exact hsqrt

theorem parsePQ_honest_fifteen :
    ∃ p q, parsePQ floorSqrt (2 ^ 32) [0, 0, 0, 0, 0, 0, 0, 15] = some (some (p, q), true) ∧
      beNat p * beNat q = beNat [0, 0, 0, 0, 0, 0, 0, 15] ∧ 1 < beNat p ∧ beNat p < beNat q :=
  (parsePQ_honest floorSqrt approximates_floorSqrt).2 [0, 0, 0, 0, 0, 0, 0, 15] 3 5 (by decide)
    Nat.prime_three Nat.prime_five (by decide) (by decide) (by decide) (by decide) (2 ^ 32) le_rfl

/-- A factor of `2 ^ 32 + 1` is written as 1; the square of a prime is refused. -/
theorem parsePQ_not_honest :
    (parsePQ floorSqrt 8 [255, 255, 255, 253, 255, 255, 255, 253] =
        some (some ([255, 255, 255, 253], [0, 0, 0, 1]), true) ∧
      beNat [255, 255, 255, 253] * beNat [0, 0, 0, 1] ≠
        beNat [255, 255, 255, 253, 255, 255, 255, 253]) ∧
    parsePQ floorSqrt 8 [0, 0, 0, 0, 0, 0, 0, 9] = some (none, true) := by
  decide +kernel

end Bettergram.Mtproto
