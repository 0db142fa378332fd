import Bettergram.Foundation.LittleEndian
import Bettergram.Foundation.SafePrime
import Mathlib.Data.Nat.Size

/-! # The key exchange

The client takes a prime and a generator from the server when they pass its checks,
makes its half of the exchange and computes the key from the half of the server. What
tests for primes is a parameter.
-/

namespace Bettergram.Mtproto

open Foundation

/-! ## Big numbers -/

def bigNum (bytes : List UInt8) : ℕ := leNat bytes.reverse

def bitsSize (n : ℕ) : ℕ := n.size
def bytesSize (n : ℕ) : ℕ := (n.size + 7) / 8

/-- The most significant byte first, without zeros before it. -/
def getBytes (n : ℕ) : List UInt8 := (leBytes (bytesSize n) n).reverse

/-- By squares, from the high bits of the power on. -/
def modExp (base power modulus : ℕ) : ℕ :=
  power.bits.foldr (fun bit result =>
    if bit then result * result * base % modulus else result * result % modulus) (1 % modulus)

/-! ## The checks -/

def kMaxModExpSize : ℕ := 256
def kMinDiffBitsCount : ℕ := 2048 - 64
def kGoodPrimeBitsCount : ℕ := 2048

def IsGoodModExpFirst (modexp prime : ℕ) : Bool :=
  let diff : ℤ := prime - modexp
  !(decide (diff < 0) || decide (bitsSize diff.natAbs < kMinDiffBitsCount) ||
    decide (bitsSize modexp < kMinDiffBitsCount) || decide (kMaxModExpSize < bytesSize modexp))

/-- The remainders of the prime that go with a generator. -/
def IsGoodGenerator (prime : ℕ) (g : ℤ) : Bool :=
  if g = 2 then prime % 8 = 7
  else if g = 3 then prime % 3 = 2
  else if g = 4 then true
  else if g = 5 then prime % 5 = 1 || prime % 5 = 4
  else if g = 6 then prime % 24 = 19 || prime % 24 = 23
  else if g = 7 then prime % 7 = 3 || prime % 7 = 5 || prime % 7 = 6
  else false

variable (isPrime : ℕ → Bool)

def IsPrimeAndGoodCheck (prime : ℕ) (g : ℤ) : Bool :=
  if bitsSize prime ≠ kGoodPrimeBitsCount then false
  else if !isPrime prime then false
  else if !IsGoodGenerator prime g then false
  else isPrime ((prime - 1) / 2)

/-- A prime that is known to be good. -/
def GoodPrime : List UInt8 :=
  [
    0xC7, 0x1C, 0xAE, 0xB9, 0xC6, 0xB1, 0xC9, 0x04, 0x8E, 0x6C, 0x52, 0x2F, 0x70, 0xF1, 0x3F, 0x73,
    0x98, 0x0D, 0x40, 0x23, 0x8E, 0x3E, 0x21, 0xC1, 0x49, 0x34, 0xD0, 0x37, 0x56, 0x3D, 0x93, 0x0F,
    0x48, 0x19, 0x8A, 0x0A, 0xA7, 0xC1, 0x40, 0x58, 0x22, 0x94, 0x93, 0xD2, 0x25, 0x30, 0xF4, 0xDB,
    0xFA, 0x33, 0x6F, 0x6E, 0x0A, 0xC9, 0x25, 0x13, 0x95, 0x43, 0xAE, 0xD4, 0x4C, 0xCE, 0x7C, 0x37,
    0x20, 0xFD, 0x51, 0xF6, 0x94, 0x58, 0x70, 0x5A, 0xC6, 0x8C, 0xD4, 0xFE, 0x6B, 0x6B, 0x13, 0xAB,
    0xDC, 0x97, 0x46, 0x51, 0x29, 0x69, 0x32, 0x84, 0x54, 0xF1, 0x8F, 0xAF, 0x8C, 0x59, 0x5F, 0x64,
    0x24, 0x77, 0xFE, 0x96, 0xBB, 0x2A, 0x94, 0x1D, 0x5B, 0xCD, 0x1D, 0x4A, 0xC8, 0xCC, 0x49, 0x88,
    0x07, 0x08, 0xFA, 0x9B, 0x37, 0x8E, 0x3C, 0x4F, 0x3A, 0x90, 0x60, 0xBE, 0xE6, 0x7C, 0xF9, 0xA4,
    0xA4, 0xA6, 0x95, 0x81, 0x10, 0x51, 0x90, 0x7E, 0x16, 0x27, 0x53, 0xB5, 0x6B, 0x0F, 0x6B, 0x41,
    0x0D, 0xBA, 0x74, 0xD8, 0xA8, 0x4B, 0x2A, 0x14, 0xB3, 0x14, 0x4E, 0x0E, 0xF1, 0x28, 0x47, 0x54,
    0xFD, 0x17, 0xED, 0x95, 0x0D, 0x59, 0x65, 0xB4, 0xB9, 0xDD, 0x46, 0x58, 0x2D, 0xB1, 0x17, 0x8D,
    0x16, 0x9C, 0x6B, 0xC4, 0x65, 0xB0, 0xD6, 0xFF, 0x9C, 0xA3, 0x92, 0x8F, 0xEF, 0x5B, 0x9A, 0xE4,
    0xE4, 0x18, 0xFC, 0x15, 0xE8, 0x3E, 0xBE, 0xA0, 0xF8, 0x7F, 0xA9, 0xFF, 0x5E, 0xED, 0x70, 0x05,
    0x0D, 0xED, 0x28, 0x49, 0xF4, 0x7B, 0xF9, 0x59, 0xD9, 0x56, 0x85, 0x0C, 0xE9, 0x29, 0x85, 0x1F,
    0x0D, 0x81, 0x15, 0xF6, 0x35, 0xB1, 0x05, 0xEE, 0x2E, 0x4E, 0x15, 0xD0, 0x4B, 0x24, 0x54, 0xBF,
    0x6F, 0x4F, 0xAD, 0xF0, 0x34, 0xB1, 0x04, 0x03, 0x11, 0x9C, 0xD8, 0xE3, 0xB9, 0x2F, 0xCC, 0x5B]

/-- The known prime is not looked at again for most generators. -/
def IsPrimeAndGood (primeBytes : List UInt8) (g : ℤ) : Bool :=
  if primeBytes = GoodPrime ∧ (g = 3 ∨ g = 4 ∨ g = 5 ∨ g = 7) then true
  else IsPrimeAndGoodCheck isPrime (bigNum primeBytes) g

/-! ## The exchange -/

structure ModExpFirst where
  modexp : List UInt8
  randomPower : List UInt8

/-- Random powers are taken until one is good; `none` says that more are needed. -/
def CreateModExp (g : ℤ) (primeBytes randomSeed : List UInt8) :
    List (List UInt8) → Option ModExpFirst
  | [] => none
  | random :: randoms =>
    let randomPower := List.zipWith (· ^^^ ·) random randomSeed
    let modexp := modExp (g % 2 ^ 32).toNat (bigNum randomPower) (bigNum primeBytes)
    if IsGoodModExpFirst modexp (bigNum primeBytes) then some ⟨getBytes modexp, randomPower⟩
    else CreateModExp g primeBytes randomSeed randoms

def CreateAuthKey (firstBytes randomBytes primeBytes : List UInt8) : List UInt8 :=
  if IsGoodModExpFirst (bigNum firstBytes) (bigNum primeBytes) then
    getBytes (modExp (bigNum firstBytes) (bigNum randomBytes) (bigNum primeBytes))
  else []

def kAuthKeySize : ℕ := 256

/-- `none` is the failed assertion on the size. -/
def FillData (computedAuthKey : List UInt8) : Option (List UInt8) :=
  if computedAuthKey.length ≤ kAuthKeySize then
    some (List.replicate (kAuthKeySize - computedAuthKey.length) 0 ++ computedAuthKey)
  else none

/-- The half of the client and the key; `none` also when the exchange starts again. -/
def dhClientParamsSend (g : ℤ) (dhPrime gA randomSeed : List UInt8) (randoms : List (List UInt8)) :
    Option (List UInt8 × List UInt8) :=
  (CreateModExp g dhPrime randomSeed randoms).bind fun gB =>
    if gB.modexp = [] then none
    else
      let computedAuthKey := CreateAuthKey gA gB.randomPower dhPrime
      if computedAuthKey = [] then none
      else (FillData computedAuthKey).map fun authKey => (gB.modexp, authKey)

/-! ## Numbers and their bytes -/

theorem lt_bytesSize (n : ℕ) : n < 256 ^ bytesSize n := by
  have hpow : (256 : ℕ) ^ bytesSize n = 2 ^ (8 * bytesSize n) := by
    rw [pow_mul]
    norm_num
  rw [hpow, ← Nat.size_le, bytesSize]
  omega

@[simp] theorem bigNum_getBytes (n : ℕ) : bigNum (getBytes n) = n := by
  rw [bigNum, getBytes, List.reverse_reverse, leNat_leBytes_of_lt (lt_bytesSize n)]

theorem leNat_zeros (count : ℕ) : leNat (List.replicate count 0) = 0 := by
  induction count with
  | zero => rfl
  | succ count ih =>
    rw [List.replicate_succ, leNat, ih]
    rfl

theorem leNat_append_zeros (bytes : List UInt8) (count : ℕ) :
    leNat (bytes ++ List.replicate count 0) = leNat bytes := by
  induction bytes with
  | nil => exact leNat_zeros count
  | cons byte bytes ih => rw [List.cons_append, leNat, leNat, ih]

/-- The zeros before a key do not change its number. -/
theorem bigNum_fillData {computed authKey : List UInt8} (h : FillData computed = some authKey) :
    bigNum authKey = bigNum computed ∧ authKey.length = kAuthKeySize := by
  rw [FillData] at h
  split_ifs at h with hle
  cases h
  constructor
  · rw [bigNum, bigNum, List.reverse_append, List.reverse_replicate, leNat_append_zeros]
  · rw [List.length_append, List.length_replicate]
    omega

/-- The squares compute the power. -/
theorem modExp_eq (base power modulus : ℕ) : modExp base power modulus = base ^ power % modulus := by
  induction power using Nat.binaryRec' with
  | zero => rw [modExp, Nat.zero_bits, List.foldr_nil, pow_zero]
  | bit bit power hbit ih =>
    rw [modExp, Nat.bits_append_bit power bit hbit, List.foldr_cons, ← modExp, ih]
    cases bit with
    | false =>
      rw [if_neg Bool.false_ne_true, ← Nat.mul_mod, ← pow_add, Nat.bit_false_apply, two_mul]
    | true =>
      have hsquare : base ^ power % modulus * (base ^ power % modulus) * base % modulus =
          base ^ power * base ^ power * base % modulus :=
        ((Nat.mod_modEq _ _).mul (Nat.mod_modEq _ _)).mul_right base
      rw [if_pos rfl, hsquare, Nat.bit_true_apply, pow_succ, two_mul, pow_add]

/-! ## What the checks accept -/

variable {isPrime}

theorem isGoodModExpFirst_iff (modexp prime : ℕ) : IsGoodModExpFirst modexp prime = true ↔
    2 ^ (kMinDiffBitsCount - 1) ≤ modexp ∧ modexp + 2 ^ (kMinDiffBitsCount - 1) ≤ prime ∧
      bytesSize modexp ≤ kMaxModExpSize := by
  have hsize : ∀ n, ¬bitsSize n < kMinDiffBitsCount ↔ 2 ^ (kMinDiffBitsCount - 1) ≤ n := by
    intro n
    rw [not_lt, bitsSize, show kMinDiffBitsCount = kMinDiffBitsCount - 1 + 1 from rfl,
      Nat.succ_le_iff, Nat.lt_size]
    rfl
  rw [IsGoodModExpFirst]
  simp only [Bool.not_eq_true', Bool.or_eq_false_iff, decide_eq_false_iff_not, hsize, not_lt]
  generalize 2 ^ (kMinDiffBitsCount - 1) = bound
  omega

/-- Powers of small and large numbers are not good. -/
theorem isGoodModExpFirst_ne {modexp prime : ℕ} (h : IsGoodModExpFirst modexp prime = true) :
    modexp < prime ∧ (modexp : ZMod prime) ≠ 0 ∧ (modexp : ZMod prime) ≠ 1 ∧
      (modexp : ZMod prime) ≠ -1 := by
  rw [isGoodModExpFirst_iff] at h
  obtain ⟨hlow, hhigh, -⟩ := h
  have htwo : 2 ≤ 2 ^ (kMinDiffBitsCount - 1) :=
    (Nat.pow_le_pow_right (by omega) (show 1 ≤ kMinDiffBitsCount - 1 by decide) : 2 ^ 1 ≤ _)
  generalize 2 ^ (kMinDiffBitsCount - 1) = bound at hlow hhigh htwo
  refine ⟨by omega, ?_, ?_, ?_⟩
  · intro hzero
    have hle := Nat.le_of_dvd (by omega) ((ZMod.natCast_eq_zero_iff modexp prime).mp hzero)
    omega
  · intro hone
    rw [← Nat.cast_one, ZMod.natCast_eq_natCast_iff', Nat.mod_eq_of_lt (by omega),
      Nat.mod_eq_of_lt (by omega)] at hone
    omega
  · intro hneg
    have hsum : ((modexp + 1 : ℕ) : ZMod prime) = 0 := by
      rw [Nat.cast_add, hneg, Nat.cast_one, neg_add_cancel]
    have hle := Nat.le_of_dvd (by omega) ((ZMod.natCast_eq_zero_iff _ prime).mp hsum)
    omega

theorem isGoodGenerator_range {prime : ℕ} {g : ℤ} (h : IsGoodGenerator prime g = true) :
    2 ≤ g ∧ g ≤ 7 := by
  rw [IsGoodGenerator] at h
  split_ifs at h <;> omega

/-- The remainders tell which small numbers are squares. -/
theorem isGoodGenerator_iff {prime : ℕ} (h : SafePrime prime) {g : ℕ} (htwo : 2 ≤ g)
    (hseven : g ≤ 7) : IsGoodGenerator prime g = true ↔ IsSquare (g : ZMod prime) := by
  have hcases : g = 2 ∨ g = 3 ∨ g = 4 ∨ g = 5 ∨ g = 6 ∨ g = 7 := by omega
  rcases hcases with rfl | rfl | rfl | rfl | rfl | rfl
  · rw [h.isSquare_two]
    exact decide_eq_true_iff
  · rw [h.isSquare_three]
    exact decide_eq_true_iff
  · exact iff_of_true rfl (SafePrime.isSquare_four prime)
  · rw [h.isSquare_five]
    simp [IsGoodGenerator]
  · rw [h.isSquare_six]
    simp [IsGoodGenerator]
  · rw [h.isSquare_seven]
    simp [IsGoodGenerator, or_assoc]

theorem safePrime_of_size {prime : ℕ} (hsize : bitsSize prime = kGoodPrimeBitsCount) : 7 < prime := by
  have hlt : kGoodPrimeBitsCount - 1 < bitsSize prime := by
    rw [hsize]
    decide
  rw [bitsSize, Nat.lt_size] at hlt
  have hpow : 2 ^ 3 ≤ 2 ^ (kGoodPrimeBitsCount - 1) := Nat.pow_le_pow_right (by omega) (by decide)
  omega

/-- The check accepts the safe primes of 2048 bits, with the small numbers that generate the
subgroup of half the order. -/
theorem isPrimeAndGoodCheck_iff (hprime : ∀ n, isPrime n = true ↔ n.Prime) (prime : ℕ) (g : ℤ) :
    IsPrimeAndGoodCheck isPrime prime g = true ↔
      bitsSize prime = kGoodPrimeBitsCount ∧ prime.Prime ∧ ((prime - 1) / 2).Prime ∧
        2 ≤ g ∧ g ≤ 7 ∧ orderOf (g : ZMod prime) = (prime - 1) / 2 := by
  have hgenerator : ∀ h : SafePrime prime, 2 ≤ g → g ≤ 7 →
      (IsGoodGenerator prime g = true ↔ orderOf (g : ZMod prime) = (prime - 1) / 2) := by
    intro h htwo hseven
    obtain ⟨small, rfl⟩ := Int.eq_ofNat_of_zero_le (show 0 ≤ g by omega)
    have hne := h.cast_ne (n := small) (by omega) (by omega)
    rw [Int.cast_natCast, h.orderOf_eq_iff hne.1 hne.2]
    exact isGoodGenerator_iff h (by omega) (by omega)
  rw [IsPrimeAndGoodCheck]
  constructor
  · intro h
    split_ifs at h with hsize hfirst hgood
    rw [not_not] at hsize
    rw [Bool.not_eq_true', Bool.not_eq_false, hprime] at hfirst
    rw [Bool.not_eq_true', Bool.not_eq_false] at hgood
    rw [hprime] at h
    obtain ⟨htwo, hseven⟩ := isGoodGenerator_range hgood
    exact ⟨hsize, hfirst, h, htwo, hseven,
      (hgenerator ⟨hfirst, h, safePrime_of_size hsize⟩ htwo hseven).mp hgood⟩
  · rintro ⟨hsize, hfirst, hhalf, htwo, hseven, horder⟩
    have hgood := (hgenerator ⟨hfirst, hhalf, safePrime_of_size hsize⟩ htwo hseven).mpr horder
    rw [if_neg (not_not.mpr hsize), (hprime prime).mpr hfirst, hgood]
    exact (hprime _).mpr hhalf

/-- The check with a test for primes, at a small prime. -/
theorem isPrimeAndGoodCheck_iff_small :
    IsPrimeAndGoodCheck (fun n => decide n.Prime) 23 2 = true ↔
      bitsSize 23 = kGoodPrimeBitsCount ∧ Nat.Prime 23 ∧ ((23 - 1) / 2).Prime ∧
        (2 : ℤ) ≤ 2 ∧ (2 : ℤ) ≤ 7 ∧ orderOf ((2 : ℤ) : ZMod 23) = (23 - 1) / 2 :=
  isPrimeAndGoodCheck_iff (fun _ => decide_eq_true_iff) 23 2

theorem goodPrime_remainders : bigNum GoodPrime % 3 = 2 ∧ bigNum GoodPrime % 5 = 3 ∧
    bigNum GoodPrime % 7 = 6 ∧ 2 ^ 2047 ≤ bigNum GoodPrime ∧ bigNum GoodPrime < 2 ^ 2048 := by
  decide +kernel

/-- The shortcut for the known prime answers as the check, except for one generator: 5 is taken,
and the check does not take it. -/
theorem isPrimeAndGood_shortcut_iff (hprime : isPrime (bigNum GoodPrime) = true)
    (hhalf : isPrime ((bigNum GoodPrime - 1) / 2) = true) (primeBytes : List UInt8) (g : ℤ) :
    IsPrimeAndGood isPrime primeBytes g = IsPrimeAndGoodCheck isPrime (bigNum primeBytes) g ↔
      ¬(primeBytes = GoodPrime ∧ g = 5) := by
  obtain ⟨hthree, hfive, hseven, hlow, hhigh⟩ := goodPrime_remainders
  have hsize : bitsSize (bigNum GoodPrime) = kGoodPrimeBitsCount :=
    le_antisymm (Nat.size_le.mpr hhigh) (Nat.lt_size.mpr hlow)
  have hcheck : ∀ g, IsPrimeAndGoodCheck isPrime (bigNum GoodPrime) g =
      IsGoodGenerator (bigNum GoodPrime) g := by
    intro g
    rw [IsPrimeAndGoodCheck, if_neg (not_not.mpr hsize), hprime, hhalf]
    cases IsGoodGenerator (bigNum GoodPrime) g <;> rfl
  rw [IsPrimeAndGood]
  by_cases hknown : primeBytes = GoodPrime
  · rw [hknown, hcheck]
    by_cases hshortcut : g = 3 ∨ g = 4 ∨ g = 5 ∨ g = 7
    · rw [if_pos ⟨rfl, hshortcut⟩]
      rcases hshortcut with rfl | rfl | rfl | rfl
      · simp [IsGoodGenerator, hthree]
      · simp [IsGoodGenerator]
      · simp [IsGoodGenerator, hfive]
      · simp [IsGoodGenerator, hseven]
    · rw [if_neg fun h => hshortcut h.2]
      exact iff_of_true rfl fun h => hshortcut (.inr (.inr (.inl h.2)))
  · rw [if_neg fun h => hknown h.1]
    exact iff_of_true rfl fun h => hknown h.1

theorem isPrimeAndGood_shortcut_iff_five :
    IsPrimeAndGood (fun _ => true) GoodPrime 5 =
        IsPrimeAndGoodCheck (fun _ => true) (bigNum GoodPrime) 5 ↔
      ¬(GoodPrime = GoodPrime ∧ (5 : ℤ) = 5) :=
  isPrimeAndGood_shortcut_iff rfl rfl GoodPrime 5

/-! ## The key -/

variable {g : ℤ} {dhPrime gA randomSeed : List UInt8} {randoms : List (List UInt8)}

theorem createModExp_spec {gB : ModExpFirst}
    (h : CreateModExp g dhPrime randomSeed randoms = some gB) :
    bigNum gB.modexp = (g % 2 ^ 32).toNat ^ bigNum gB.randomPower % bigNum dhPrime ∧
      IsGoodModExpFirst (bigNum gB.modexp) (bigNum dhPrime) = true := by
  induction randoms with
  | nil => cases h
  | cons random randoms ih =>
    rw [CreateModExp] at h
    split_ifs at h with hgood
    · cases h
      simp only [bigNum_getBytes]
      exact ⟨modExp_eq _ _ _, hgood⟩
    · exact ih h

/-- What is sent and kept when the exchange goes on. -/
theorem dhClientParamsSend_spec {half authKey : List UInt8}
    (h : dhClientParamsSend g dhPrime gA randomSeed randoms = some (half, authKey)) :
    ∃ power : ℕ, bigNum half = (g % 2 ^ 32).toNat ^ power % bigNum dhPrime ∧
      IsGoodModExpFirst (bigNum half) (bigNum dhPrime) = true ∧
      IsGoodModExpFirst (bigNum gA) (bigNum dhPrime) = true ∧
      FillData (getBytes (bigNum gA ^ power % bigNum dhPrime)) = some authKey ∧
      getBytes (bigNum gA ^ power % bigNum dhPrime) ≠ [] := by
  obtain ⟨gB, hgB, h⟩ := Option.bind_eq_some_iff.mp h
  split_ifs at h with hempty
  simp only at h
  split_ifs at h with hkey
  obtain ⟨filled, hfilled, heq⟩ := Option.map_eq_some_iff.mp h
  cases heq
  obtain ⟨hmodexp, hgood⟩ := createModExp_spec hgB
  rw [CreateAuthKey] at hkey hfilled
  split_ifs at hkey hfilled with hfirst
  · rw [modExp_eq] at hkey hfilled
    exact ⟨bigNum gB.randomPower, hmodexp, hgood, hfirst, hfilled, hkey⟩
  · exact absurd rfl hkey

/-- A key that only some few powers of tell apart. -/
def Weak (prime : ℕ) (key : ℕ) : Prop :=
  (key : ZMod prime) = 0 ∨ ¬(prime - 1) / 2 ∣ orderOf (key : ZMod prime)

/-- Whatever the server sends, with a safe prime the key is never weak. -/
theorem dhClientParamsSend_never_weak (g : ℤ) (dhPrime gA randomSeed : List UInt8)
    (randoms : List (List UInt8)) :
    ¬∃ half authKey, (bigNum dhPrime).Prime ∧ ((bigNum dhPrime - 1) / 2).Prime ∧
      dhClientParamsSend g dhPrime gA randomSeed randoms = some (half, authKey) ∧
      Weak (bigNum dhPrime) (bigNum authKey) := by
  rintro ⟨half, authKey, hfirst, hhalf, hsend, hweak⟩
  obtain ⟨power, hmodexp, hgood, hgA, hfilled, -⟩ := dhClientParamsSend_spec hsend
  have hlarge : 7 < bigNum dhPrime := by
    have hbounds := (isGoodModExpFirst_iff _ _).mp hgA
    have hpow : 2 ^ 3 ≤ 2 ^ (kMinDiffBitsCount - 1) := Nat.pow_le_pow_right (by omega) (by decide)
    omega
  have hsafe : SafePrime (bigNum dhPrime) := ⟨hfirst, hhalf, hlarge⟩
  -- The half of the client is not trivial, so its power is not one of the bad ones.
  have hpower : ¬(bigNum dhPrime - 1) / 2 ∣ power := by
    obtain ⟨-, hzero, hone, hneg⟩ := isGoodModExpFirst_ne hgood
    rw [hmodexp, ZMod.natCast_mod, Nat.cast_pow] at hzero hone hneg
    exact hsafe.not_dvd_of_pow_ne hzero hone hneg
  obtain ⟨-, hzero, hone, hneg⟩ := isGoodModExpFirst_ne hgA
  have hkey : ((bigNum authKey : ℕ) : ZMod (bigNum dhPrime)) =
      ((bigNum gA : ℕ) : ZMod (bigNum dhPrime)) ^ power := by
    rw [(bigNum_fillData hfilled).1, bigNum_getBytes, ZMod.natCast_mod, Nat.cast_pow]
  obtain ⟨hkeyZero, hkeyOne, hkeyNeg⟩ := hsafe.pow_ne hzero hone hneg hpower
  rw [Weak, hkey] at hweak
  rcases hweak with hweak | hweak
  · exact hkeyZero hweak
  · exact hweak (hsafe.dvd_orderOf hkeyZero hkeyOne hkeyNeg)

/-- What a server with the power `secret` sends. -/
def serverHalf (g : ℤ) (dhPrime secret : List UInt8) : List UInt8 :=
  getBytes (modExp (g % 2 ^ 32).toNat (bigNum secret) (bigNum dhPrime))

/-- The server computes the key of the client from the half it gets, in the same way. -/
theorem dhClientParamsSend_agrees (g : ℤ) (dhPrime secret randomSeed : List UInt8)
    (randoms : List (List UInt8)) :
    (dhClientParamsSend g dhPrime (serverHalf g dhPrime secret) randomSeed randoms).map Prod.snd =
      (dhClientParamsSend g dhPrime (serverHalf g dhPrime secret) randomSeed randoms).bind
        fun sent => FillData (CreateAuthKey sent.1 secret dhPrime) := by
  cases hsend : dhClientParamsSend g dhPrime (serverHalf g dhPrime secret) randomSeed randoms with
  | none => rfl
  | some sent =>
    obtain ⟨half, authKey⟩ := sent
    obtain ⟨power, hmodexp, hgood, -, hfilled, -⟩ := dhClientParamsSend_spec hsend
    have hsame : bigNum (serverHalf g dhPrime secret) ^ power % bigNum dhPrime =
        bigNum half ^ bigNum secret % bigNum dhPrime := by
      rw [hmodexp, serverHalf, bigNum_getBytes, modExp_eq, ← Nat.pow_mod, ← Nat.pow_mod, ← pow_mul, ← pow_mul,
        mul_comm]
    rw [Option.map_some, Option.bind_some, CreateAuthKey, if_pos hgood, modExp_eq, ← hsame, hfilled]

end Bettergram.Mtproto
