import Bettergram.Foundation.LittleEndian
import Bettergram.Foundation.Keystream

/-! # Counter-mode encryption of storage files

`CtrState` addresses the keystream by offset: every call recomputes the counter
of its first block from the initial vector. The block cipher and the hash are
parameters; `CRYPTO_ctr128_encrypt` is written out for whole blocks.
-/

namespace Bettergram.Storage
open Foundation

def kBlockSize : ℕ := 16
def kSaltSize : ℕ := 64

abbrev Block := Vector UInt8 16
abbrev CipherKey := Vector UInt8 32
abbrev Salt := Vector UInt8 64

/-- The two library primitives the storage code calls. -/
structure OpenSSL where
  aesEncrypt : CipherKey → Block → Block
  sha256 : List UInt8 → Vector UInt8 32

/-- A block read as a 128-bit big-endian number. -/
def blockNat (b : Block) : ℕ := leNat b.toList.reverse

def blockOfNat (n : ℕ) : Block := ⟨(leBytes 16 n).reverse.toArray, by simp⟩

theorem toList_blockOfNat (n : ℕ) : (blockOfNat n).toList = (leBytes 16 n).reverse := rfl

@[simp] theorem blockNat_blockOfNat (n : ℕ) : blockNat (blockOfNat n) = n % 256 ^ 16 := by
  rw [blockNat, toList_blockOfNat, List.reverse_reverse, leNat_leBytes]

@[simp] theorem blockOfNat_blockNat (b : Block) : blockOfNat (blockNat b) = b := by
  apply Vector.toList_inj.mp
  have h := leBytes_leNat b.toList.reverse
  simp only [List.length_reverse, Vector.length_toList] at h
  rw [toList_blockOfNat, blockNat, h, List.reverse_reverse]

theorem blockOfNat_mod (n : ℕ) : blockOfNat (n % 256 ^ 16) = blockOfNat n := by
  apply Vector.toList_inj.mp
  rw [toList_blockOfNat, toList_blockOfNat, leBytes_mod]

/-- The counter advances by one for each block and wraps at 128 bits. -/
def ctr128Inc (counter : Block) : Block := blockOfNat (blockNat counter + 1)

/-- `CRYPTO_ctr128_encrypt` on `n` whole blocks, starting at a block boundary. -/
def ctr128Encrypt (encrypt : Block → Block) : ℕ → Block → List UInt8 → List UInt8
  | 0, _, _ => []
  | n + 1, counter, data =>
    List.zipWith (· ^^^ ·) (data.take kBlockSize) (encrypt counter).toList ++
      ctr128Encrypt encrypt n (ctr128Inc counter) (data.drop kBlockSize)

structure CtrState where
  key : CipherKey
  iv : Block

/-- The loop of `incrementedIv`, least significant digit first: it stops as soon
as no carry is left, and the carry out of the last digit is dropped. -/
def addDigits : List UInt8 → ℕ → List UInt8
  | [], _ => []
  | digit :: digits, increment =>
    let sum := increment + digit.toNat
    UInt8.ofNat (sum % 256) :: if sum / 256 = 0 then digits else addDigits digits (sum / 256)

@[simp] theorem length_addDigits (digits : List UInt8) (increment : ℕ) :
    (addDigits digits increment).length = digits.length := by
  induction digits generalizing increment with
  | nil => rfl
  | cons d ds ih =>
    simp only [addDigits, List.length_cons]
    split <;> simp [ih]

/-- Carrying digit by digit is addition modulo the width of the number. -/
theorem leNat_addDigits (digits : List UInt8) (increment : ℕ) :
    leNat (addDigits digits increment) = (leNat digits + increment) % 256 ^ digits.length := by
  induction digits generalizing increment with
  | nil => simp [addDigits, leNat, Nat.mod_one]
  | cons d ds ih =>
    have hsum : leNat (d :: ds) + increment =
        (increment + d.toNat) % 256 + 256 * (leNat ds + (increment + d.toNat) / 256) := by
      have h := Nat.mod_add_div (increment + d.toNat) 256
      simp only [leNat]
      omega
    have hdigit : (UInt8.ofNat ((increment + d.toNat) % 256)).toNat =
        (increment + d.toNat) % 256 := by simp
    have hmod : ∀ r x : ℕ, r < 256 →
        (r + 256 * x) % 256 ^ (ds.length + 1) = r + 256 * (x % 256 ^ ds.length) := by
      intro r x hr
      rw [pow_succ', Nat.mod_mul]
      have h₁ : (r + 256 * x) % 256 = r := by omega
      have h₂ : (r + 256 * x) / 256 = x := by omega
      rw [h₁, h₂]
    rw [hsum, List.length_cons, hmod _ _ (Nat.mod_lt _ (by decide))]
    simp only [addDigits, leNat, hdigit]
    split
    · next h =>
      rw [h, Nat.add_zero, Nat.mod_eq_of_lt (leNat_lt ds)]
    · rw [ih]

namespace CtrState

def incrementedIv (s : CtrState) (blockIndex : ℕ) : Block :=
  if blockIndex = 0 then s.iv
  else ⟨(addDigits s.iv.toList.reverse blockIndex).reverse.toArray, by simp⟩

/-- The counter of a block is the initial vector plus the index of the block. -/
theorem incrementedIv_eq (s : CtrState) (blockIndex : ℕ) :
    s.incrementedIv blockIndex = blockOfNat (blockNat s.iv + blockIndex) := by
  unfold incrementedIv
  split
  · next h => rw [h, Nat.add_zero, blockOfNat_blockNat]
  · apply Vector.toList_inj.mp
    change (addDigits s.iv.toList.reverse blockIndex).reverse = _
    rw [toList_blockOfNat, List.reverse_inj]
    apply eq_leBytes_of_leNat
    · simp
    · rw [leNat_addDigits, blockNat]
      simp

variable (ssl : OpenSSL)

/-- `process`; `none` is a failed `Expects`. -/
def process (s : CtrState) (data : List UInt8) (offset : ℕ) : Option (List UInt8) :=
  if data.length % kBlockSize = 0 ∧ offset % kBlockSize = 0 then
    let blockIndex := offset / kBlockSize
    some (ctr128Encrypt (ssl.aesEncrypt s.key) (data.length / kBlockSize)
      (s.incrementedIv blockIndex) data)
  else none

def encrypt (s : CtrState) (data : List UInt8) (offset : ℕ) : Option (List UInt8) :=
  s.process ssl data offset

def decrypt (s : CtrState) (data : List UInt8) (offset : ℕ) : Option (List UInt8) :=
  s.process ssl data offset

/-- The byte of the keystream at a position of the encrypted stream. -/
def keystream (s : CtrState) (p : ℕ) : UInt8 :=
  (ssl.aesEncrypt s.key (blockOfNat (blockNat s.iv + p / kBlockSize))).get
    ⟨p % kBlockSize, Nat.mod_lt _ (by decide)⟩

theorem ctr128Encrypt_eq (s : CtrState) (n j : ℕ) (data : List UInt8)
    (hlen : data.length = kBlockSize * n) :
    ctr128Encrypt (ssl.aesEncrypt s.key) n (blockOfNat (blockNat s.iv + j)) data =
      xorAt (s.keystream ssl) (kBlockSize * j) data := by
  induction n generalizing j data with
  | zero =>
    have hnil : data = [] := List.eq_nil_of_length_eq_zero (by simpa using hlen)
    simp [ctr128Encrypt, hnil]
  | succ n ih =>
    have hinc : ctr128Inc (blockOfNat (blockNat s.iv + j)) =
        blockOfNat (blockNat s.iv + (j + 1)) := by
      rw [ctr128Inc, blockNat_blockOfNat, ← blockOfNat_mod, Nat.mod_add_mod, blockOfNat_mod,
        Nat.add_assoc]
    have hhead : List.zipWith (· ^^^ ·) (data.take kBlockSize)
        (ssl.aesEncrypt s.key (blockOfNat (blockNat s.iv + j))).toList =
          xorAt (s.keystream ssl) (kBlockSize * j) (data.take kBlockSize) := by
      apply zipWith_eq_xorAt
      · simp [kBlockSize]
      · intro i hi
        have hi16 : i < 16 := by simpa using hi
        have hdiv : (kBlockSize * j + i) / kBlockSize = j := by
          simp only [kBlockSize]; omega
        have hmod : (kBlockSize * j + i) % kBlockSize = i := by
          simp only [kBlockSize]; omega
        simp only [keystream, hdiv, hmod, Vector.getElem_toList]
        rfl
    have htake : (data.take kBlockSize).length = kBlockSize := by
      simp only [List.length_take, hlen, kBlockSize]; omega
    have hdrop : (data.drop kBlockSize).length = kBlockSize * n := by
      simp only [List.length_drop, hlen, kBlockSize]; omega
    have hpos : kBlockSize * (j + 1) = kBlockSize * j + (data.take kBlockSize).length := by
      rw [htake]; ring
    rw [ctr128Encrypt, hinc, hhead, ih _ _ hdrop, hpos, ← xorAt_append, List.take_append_drop]

/-- Whole blocks at a block boundary meet exactly the keystream of their offset. -/
theorem process_eq (s : CtrState) {data : List UInt8} {offset : ℕ}
    (hdata : data.length % kBlockSize = 0) (hoffset : offset % kBlockSize = 0) :
    s.process ssl data offset = some (xorAt (s.keystream ssl) offset data) := by
  have hlen : data.length = kBlockSize * (data.length / kBlockSize) :=
    (Nat.mul_div_cancel' (Nat.dvd_of_mod_eq_zero hdata)).symm
  have hoff : kBlockSize * (offset / kBlockSize) = offset :=
    Nat.mul_div_cancel' (Nat.dvd_of_mod_eq_zero hoffset)
  rw [process, if_pos ⟨hdata, hoffset⟩]
  simp only [incrementedIv_eq]
  rw [ctr128Encrypt_eq _ _ _ _ _ hlen, hoff]

theorem process_eq_none (s : CtrState) {data : List UInt8} {offset : ℕ}
    (h : ¬(data.length % kBlockSize = 0 ∧ offset % kBlockSize = 0)) :
    s.process ssl data offset = none := if_neg h

end CtrState

structure EncryptionKey where
  data : Vector UInt8 256

namespace EncryptionKey

/-- The stream of one file: both halves of the key are hashed with their half of the salt. -/
def prepareCtrState (ssl : OpenSSL) (k : EncryptionKey) (salt : Salt) : CtrState where
  key := ssl.sha256 (k.data.toList.take 128 ++ salt.toList.take 32)
  iv := (ssl.sha256 (k.data.toList.drop 128 ++ salt.toList.drop 32)).take 16

end EncryptionKey

end Bettergram.Storage
