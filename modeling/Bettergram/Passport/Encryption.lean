import Bettergram.Foundation.LittleEndian
import Mathlib.Algebra.BigOperators.Group.List.Basic

/-! # Encryption of passport data

Data is put behind random bytes whose number stands in the first of them, and
encrypted under a key made of the secret and the digest of it all. A secret is
32 bytes whose sum is 239 modulo 255. `none` stands for a failed `Expects`.
-/

namespace Bettergram.Passport

open Foundation

def kAesKeyLength : ℕ := 32
def kAesIvLength : ℕ := 16
def kSecretSize : ℕ := 32
def kAesParamsHashSize : ℕ := 64
def kMinPadding : ℕ := 32
def kMaxPadding : ℕ := 255
def kAlignTo : ℕ := 16
def kDataHashSize : ℕ := 32

/-- What comes from outside: two digests of fixed length, and AES-CBC, which
turns whole blocks into as many bytes and back. -/
structure Openssl where
  sha256 : List UInt8 → List UInt8
  sha512 : List UInt8 → List UInt8
  aesCbcEncrypt : List UInt8 → List UInt8 → List UInt8 → List UInt8
  aesCbcDecrypt : List UInt8 → List UInt8 → List UInt8 → List UInt8
  length_sha256 : ∀ bytes, (sha256 bytes).length = 32
  length_sha512 : ∀ bytes, (sha512 bytes).length = 64
  length_encrypt : ∀ src key iv, 16 ∣ src.length → (aesCbcEncrypt src key iv).length = src.length
  length_decrypt : ∀ src key iv, 16 ∣ src.length → (aesCbcDecrypt src key iv).length = src.length
  decrypt_encrypt : ∀ src key iv, 16 ∣ src.length →
    aesCbcDecrypt (aesCbcEncrypt src key iv) key iv = src

structure AesParams where
  key : List UInt8
  iv : List UInt8

structure EncryptedData where
  secret : List UInt8
  hash : List UInt8
  bytes : List UInt8

def expects (condition : Prop) [Decidable condition] : Option Unit :=
  if condition then some () else none

@[simp] theorem expects_eq_some (condition : Prop) [Decidable condition] :
    expects condition = some () ↔ condition := by
  unfold expects
  split <;> simp [*]

variable (o : Openssl)

def prepareAesParamsWithHash (hashForEncryptionKey : List UInt8) : Option AesParams :=
  (expects (hashForEncryptionKey.length = kAesParamsHashSize)).map fun _ =>
    ⟨hashForEncryptionKey.take kAesKeyLength,
      (hashForEncryptionKey.drop kAesKeyLength).take kAesIvLength⟩

def prepareAesParams (bytesForEncryptionKey : List UInt8) : Option AesParams :=
  prepareAesParamsWithHash (o.sha512 bytesForEncryptionKey)

/-- `EncryptOrDecrypt` with the direction as the cipher; a key of the right
length is always set. -/
def encryptOrDecrypt (cipher : List UInt8 → List UInt8 → List UInt8 → List UInt8)
    (initial : List UInt8) (params : AesParams) : Option (List UInt8) :=
  (expects (initial.length % 16 = 0)).bind fun _ =>
    (expects (params.key.length = kAesKeyLength)).bind fun _ =>
      (expects (params.iv.length = kAesIvLength)).map fun _ => cipher initial params.key params.iv

def encrypt (decrypted : List UInt8) (params : AesParams) : Option (List UInt8) :=
  encryptOrDecrypt o.aesCbcEncrypt decrypted params

def decrypt (encrypted : List UInt8) (params : AesParams) : Option (List UInt8) :=
  encryptOrDecrypt o.aesCbcDecrypt encrypted params

/-! ### Secrets -/

def sumOf (bytes : List UInt8) : ℕ := (bytes.map UInt8.toNat).sum

def checkBytesMod255 (bytes : List UInt8) : Bool := sumOf bytes % 255 = 239

def checkSecretBytes (secret : List UInt8) : Bool := checkBytesMod255 secret

def generateSecretBytes (random : ℕ → UInt8) : List UInt8 :=
  let result := (List.range kSecretSize).map random
  let mod := sumOf result % 255
  let add := 255 + 239 - mod
  let first := ((result.getD 0 0).toNat + add) % 255
  result.set 0 (UInt8.ofNat first)

def decryptSecretBytesWithHash (encryptedSecret hashForEncryptionKey : List UInt8) :
    Option (List UInt8) :=
  if encryptedSecret = [] then some []
  else if encryptedSecret.length ≠ kSecretSize then some []
  else
    (prepareAesParamsWithHash hashForEncryptionKey).bind fun params =>
      (decrypt o encryptedSecret params).map fun result =>
        if checkSecretBytes result then result else []

def decryptSecretBytes (encryptedSecret bytesForEncryptionKey : List UInt8) :
    Option (List UInt8) :=
  decryptSecretBytesWithHash o encryptedSecret (o.sha512 bytesForEncryptionKey)

def encryptSecretBytes (secret bytesForEncryptionKey : List UInt8) : Option (List UInt8) :=
  (expects (secret.length = kSecretSize)).bind fun _ =>
    (expects (checkSecretBytes secret = true)).bind fun _ =>
      (prepareAesParams o bytesForEncryptionKey).bind fun params => encrypt o secret params

def encryptValueSecret (valueSecret secret valueHash : List UInt8) : Option (List UInt8) :=
  encryptSecretBytes o valueSecret (secret ++ valueHash)

def decryptValueSecret (encrypted secret valueHash : List UInt8) : Option (List UInt8) :=
  decryptSecretBytes o encrypted (secret ++ valueHash)

/-! ### Data -/

def kFromPadding : ℕ := kMinPadding + kAlignTo - 1
def kPaddingDelta : ℕ := kMaxPadding - kFromPadding

/-- The padding that `EncryptData` chooses for a size. -/
def paddingFor (randomValue : UInt32) (size : ℕ) : ℕ :=
  let randomPadding := kFromPadding + randomValue.toNat % kPaddingDelta
  randomPadding - (size + randomPadding) % kAlignTo

/-- The padding, its number first, and the bytes behind it. -/
def unencryptedOf (padding : ℕ) (random : ℕ → UInt8) (bytes : List UInt8) : List UInt8 :=
  UInt8.ofNat padding :: ((List.range (padding - 1)).map random ++ bytes)

def encryptData (bytes dataSecret : List UInt8) (randomValue : UInt32) (random : ℕ → UInt8) :
    Option EncryptedData :=
  let padding := paddingFor randomValue bytes.length
  (expects (kMinPadding ≤ padding ∧ padding ≤ kMaxPadding)).bind fun _ =>
    let unencrypted := unencryptedOf padding random bytes
    (expects (unencrypted.length % kAlignTo = 0)).bind fun _ =>
      let dataHash := o.sha256 unencrypted
      (prepareAesParams o (dataSecret ++ dataHash)).bind fun params =>
        (encrypt o unencrypted params).map fun encrypted => ⟨dataSecret, dataHash, encrypted⟩

/-- The end of `DecryptData`, with the decrypted bytes at hand. -/
def checkDecrypted (decrypted dataHash : List UInt8) : Option (List UInt8) :=
  if o.sha256 decrypted ≠ dataHash then some []
  else
    decrypted.head?.bind fun first =>
      let padding := first.toNat
      if padding < kMinPadding ∨ kMaxPadding < padding ∨ decrypted.length < padding then some []
      else (expects (padding ≤ decrypted.length)).map fun _ => decrypted.drop padding

def decryptData (encrypted dataHash dataSecret : List UInt8) : Option (List UInt8) :=
  if encrypted = [] then some []
  else if dataHash.length ≠ kDataHashSize then some []
  else if dataSecret.length ≠ kSecretSize then some []
  else
    (prepareAesParams o (dataSecret ++ dataHash)).bind fun params =>
      (decrypt o encrypted params).bind fun decrypted => checkDecrypted o decrypted dataHash

/-! ### The parameters of the cipher -/

variable {o}

/-- The digest is long enough for key and iv. -/
theorem prepareAesParams_spec (o : Openssl) (bytes : List UInt8) :
    ∃ params, prepareAesParams o bytes = some params ∧ params.key.length = kAesKeyLength ∧
      params.iv.length = kAesIvLength := by
  have hlength : (o.sha512 bytes).length = kAesParamsHashSize := o.length_sha512 bytes
  refine ⟨⟨(o.sha512 bytes).take kAesKeyLength,
    ((o.sha512 bytes).drop kAesKeyLength).take kAesIvLength⟩, ?_, ?_, ?_⟩
  · rw [prepareAesParams, prepareAesParamsWithHash, (expects_eq_some _).mpr hlength,
      Option.map_some]
  · exact List.length_take_of_le (by rw [hlength]; decide)
  · exact List.length_take_of_le (by rw [List.length_drop, hlength]; decide)

theorem encryptOrDecrypt_eq {cipher : List UInt8 → List UInt8 → List UInt8 → List UInt8}
    {initial : List UInt8} {params : AesParams} (hkey : params.key.length = kAesKeyLength)
    (hiv : params.iv.length = kAesIvLength) :
    encryptOrDecrypt cipher initial params =
      if initial.length % 16 = 0 then some (cipher initial params.key params.iv) else none := by
  rw [encryptOrDecrypt, (expects_eq_some _).mpr hkey, (expects_eq_some _).mpr hiv]
  unfold expects
  split <;> rfl

/-! ### Secrets go through -/

theorem sumOf_set (bytes : List UInt8) (byte : UInt8) (hne : bytes ≠ []) :
    sumOf (bytes.set 0 byte) + (bytes.getD 0 0).toNat = sumOf bytes + byte.toNat := by
  cases bytes with
  | nil => exact absurd rfl hne
  | cons first rest =>
    simp only [sumOf, List.set_cons_zero, List.map_cons, List.sum_cons, List.getD_cons_zero]
    omega

/-- Whatever the random bytes are, the first one makes the sum right. -/
theorem checkSecretBytes_generate (random : ℕ → UInt8) :
    checkSecretBytes (generateSecretBytes random) = true := by
  rw [checkSecretBytes, checkBytesMod255, decide_eq_true_eq]
  unfold generateSecretBytes
  dsimp only
  generalize hresult : (List.range kSecretSize).map random = result
  have hne : result ≠ [] := by
    rw [← hresult]
    simp [kSecretSize]
  generalize hfirst : ((result.getD 0 0).toNat + (255 + 239 - sumOf result % 255)) % 255 = first
  have hlt : first < 255 := by
    rw [← hfirst]
    exact Nat.mod_lt _ (by decide)
  have hsum := sumOf_set result (UInt8.ofNat first) hne
  rw [UInt8.toNat_ofNat', Nat.mod_eq_of_lt (by omega)] at hsum
  omega

@[simp] theorem length_generate (random : ℕ → UInt8) :
    (generateSecretBytes random).length = kSecretSize := by
  simp [generateSecretBytes]

theorem decryptValueSecret_encrypt {valueSecret : List UInt8} (secret valueHash : List UInt8)
    (hlength : valueSecret.length = kSecretSize) (hcheck : checkSecretBytes valueSecret = true) :
    ∃ encrypted, encryptValueSecret o valueSecret secret valueHash = some encrypted ∧
      decryptValueSecret o encrypted secret valueHash = some valueSecret := by
  obtain ⟨params, hparams, hkey, hiv⟩ := prepareAesParams_spec o (secret ++ valueHash)
  have haligned : valueSecret.length % 16 = 0 := by
    rw [hlength]
    rfl
  have hdvd := Nat.dvd_of_mod_eq_zero haligned
  have hencrypted : (o.aesCbcEncrypt valueSecret params.key params.iv).length = kSecretSize :=
    (o.length_encrypt _ _ _ hdvd).trans hlength
  have hnonempty : o.aesCbcEncrypt valueSecret params.key params.iv ≠ [] := by
    intro hnil
    rw [hnil] at hencrypted
    cases hencrypted
  refine ⟨o.aesCbcEncrypt valueSecret params.key params.iv, ?_, ?_⟩
  · rw [encryptValueSecret, encryptSecretBytes, (expects_eq_some _).mpr hlength,
      (expects_eq_some _).mpr hcheck, Option.bind_some, Option.bind_some, hparams,
      Option.bind_some, encrypt, encryptOrDecrypt_eq hkey hiv, if_pos haligned]
  · rw [prepareAesParams] at hparams
    rw [decryptValueSecret, decryptSecretBytes, decryptSecretBytesWithHash, if_neg hnonempty,
      if_neg (not_not.mpr hencrypted), hparams, Option.bind_some, decrypt,
      encryptOrDecrypt_eq hkey hiv, if_pos (by rw [hencrypted]; rfl), Option.map_some,
      o.decrypt_encrypt _ _ _ hdvd, if_pos hcheck]

/-! ### Data goes through -/

/-- The padding fits one byte, stays in its limits and fills the last block. -/
theorem paddingFor_spec (randomValue : UInt32) (size : ℕ) :
    kMinPadding ≤ paddingFor randomValue size ∧ paddingFor randomValue size ≤ kMaxPadding ∧
      (paddingFor randomValue size + size) % kAlignTo = 0 := by
  unfold paddingFor kFromPadding kPaddingDelta kFromPadding kMinPadding kMaxPadding kAlignTo
  dsimp only
  omega

theorem length_unencryptedOf {padding : ℕ} (hpos : 0 < padding) (random : ℕ → UInt8)
    (bytes : List UInt8) : (unencryptedOf padding random bytes).length = padding + bytes.length := by
  simp only [unencryptedOf, List.length_cons, List.length_append, List.length_map,
    List.length_range]
  omega

theorem drop_unencryptedOf {padding : ℕ} (hpos : 0 < padding) (random : ℕ → UInt8)
    (bytes : List UInt8) : (unencryptedOf padding random bytes).drop padding = bytes := by
  obtain ⟨rest, rfl⟩ : ∃ rest, padding = rest + 1 := ⟨padding - 1, by omega⟩
  rw [unencryptedOf, List.drop_succ_cons, Nat.add_sub_cancel]
  exact List.drop_left' (by rw [List.length_map, List.length_range])

/-- What `EncryptData` makes is decrypted again. -/
theorem decryptData_encryptData (bytes : List UInt8) {dataSecret : List UInt8}
    (hsecret : dataSecret.length = kSecretSize) (randomValue : UInt32) (random : ℕ → UInt8) :
    ∃ data, encryptData o bytes dataSecret randomValue random = some data ∧
      decryptData o data.bytes data.hash dataSecret = some bytes := by
  obtain ⟨hmin, hmax, haligned⟩ := paddingFor_spec randomValue bytes.length
  generalize hpadding : paddingFor randomValue bytes.length = padding at hmin hmax haligned
  have hpos : 0 < padding := lt_of_lt_of_le (by decide) hmin
  have hlength := length_unencryptedOf hpos random bytes
  have hdrop := drop_unencryptedOf hpos random bytes
  have hhead : (unencryptedOf padding random bytes).head? = some (UInt8.ofNat padding) := rfl
  have hmod : (unencryptedOf padding random bytes).length % kAlignTo = 0 := by
    rw [hlength]
    exact haligned
  have hdvd : 16 ∣ (unencryptedOf padding random bytes).length := Nat.dvd_of_mod_eq_zero hmod
  generalize hplain : unencryptedOf padding random bytes = plain at *
  obtain ⟨params, hparams, hkey, hiv⟩ := prepareAesParams_spec o (dataSecret ++ o.sha256 plain)
  have hhash : (o.sha256 plain).length = kDataHashSize := o.length_sha256 plain
  have hencrypted := o.length_encrypt plain params.key params.iv hdvd
  have hnonempty : o.aesCbcEncrypt plain params.key params.iv ≠ [] := by
    intro hnil
    rw [hnil, List.length_nil] at hencrypted
    omega
  refine ⟨⟨dataSecret, o.sha256 plain, o.aesCbcEncrypt plain params.key params.iv⟩, ?_, ?_⟩
  · unfold encryptData
    dsimp only
    rw [hpadding, (expects_eq_some _).mpr ⟨hmin, hmax⟩, Option.bind_some, hplain,
      (expects_eq_some _).mpr hmod, Option.bind_some, hparams, Option.bind_some, encrypt,
      encryptOrDecrypt_eq hkey hiv, if_pos (Nat.mod_eq_zero_of_dvd hdvd), Option.map_some]
  · have hbyte : (UInt8.ofNat padding).toNat = padding := by
      rw [UInt8.toNat_ofNat']
      exact Nat.mod_eq_of_lt (lt_of_le_of_lt hmax (by decide))
    have hlimits : ¬ (padding < kMinPadding ∨ kMaxPadding < padding ∨ plain.length < padding) := by
      omega
    have hcheck : checkDecrypted o plain (o.sha256 plain) = some bytes := by
      rw [checkDecrypted, if_neg (not_not.mpr rfl), hhead, Option.bind_some]
      dsimp only
      rw [hbyte, if_neg hlimits, (expects_eq_some _).mpr (by omega), Option.map_some, hdrop]
    dsimp only
    rw [decryptData, if_neg hnonempty, if_neg (not_not.mpr hhash),
      if_neg (not_not.mpr hsecret), hparams, Option.bind_some, decrypt,
      encryptOrDecrypt_eq hkey hiv, if_pos (by rw [hencrypted]; exact Nat.mod_eq_zero_of_dvd hdvd), Option.bind_some,
      o.decrypt_encrypt _ _ _ hdvd]
    exact hcheck

/-! ### What comes from the server -/

/-- The decrypted bytes end no `Expects`, unless there are none. -/
theorem checkDecrypted_spec {decrypted : List UInt8} (hne : decrypted ≠ [])
    (dataHash : List UInt8) :
    ∃ result, checkDecrypted o decrypted dataHash = some result ∧
      (result = [] ∨
        (o.sha256 decrypted = dataHash ∧ ∃ padding, result = decrypted.drop padding)) := by
  unfold checkDecrypted
  split
  · exact ⟨[], rfl, .inl rfl⟩
  · rename_i hhash
    obtain ⟨first, rest, rfl⟩ := List.exists_cons_of_ne_nil hne
    rw [List.head?_cons, Option.bind_some]
    dsimp only
    split
    · exact ⟨[], rfl, .inl rfl⟩
    · rw [(expects_eq_some _).mpr (by omega), Option.map_some]
      exact ⟨_, rfl, .inr ⟨not_not.mp hhash, _, rfl⟩⟩

variable (o)

/-- `DecryptData` fails no `Expects`, and gives nothing or the tail of bytes with that digest. -/
def DecryptsSafely (encrypted dataHash dataSecret : List UInt8) : Prop :=
  ∃ result, decryptData o encrypted dataHash dataSecret = some result ∧
    (result = [] ∨ ∃ decrypted padding, o.sha256 decrypted = dataHash ∧
      result = decrypted.drop padding)

/-- What the server sends is decrypted or refused just when it is refused for a
size already or fills whole blocks. -/
theorem decryptsSafely_iff (encrypted dataHash dataSecret : List UInt8) :
    DecryptsSafely o encrypted dataHash dataSecret ↔
      encrypted = [] ∨ dataHash.length ≠ kDataHashSize ∨ dataSecret.length ≠ kSecretSize ∨
        16 ∣ encrypted.length := by
  refine ⟨fun hsafe => ?_, fun hcondition => ?_⟩
  · by_contra hbad
    push Not at hbad
    obtain ⟨hne, hhash, hsecret, haligned⟩ := hbad
    obtain ⟨params, hparams, hkey, hiv⟩ := prepareAesParams_spec o (dataSecret ++ dataHash)
    obtain ⟨result, hresult, -⟩ := hsafe
    rw [decryptData, if_neg hne, if_neg (not_not.mpr hhash), if_neg (not_not.mpr hsecret), hparams,
      Option.bind_some, decrypt, encryptOrDecrypt_eq hkey hiv,
      if_neg (fun h => haligned (Nat.dvd_of_mod_eq_zero h))] at hresult
    cases hresult
  · unfold DecryptsSafely decryptData
    split
    · exact ⟨[], rfl, .inl rfl⟩
    rename_i hne
    split
    · exact ⟨[], rfl, .inl rfl⟩
    rename_i hhash
    split
    · exact ⟨[], rfl, .inl rfl⟩
    rename_i hsecret
    have hdvd : 16 ∣ encrypted.length := by
      obtain h | h | h | h := hcondition
      · exact absurd h hne
      · exact absurd h hhash
      · exact absurd h hsecret
      · exact h
    obtain ⟨params, hparams, hkey, hiv⟩ := prepareAesParams_spec o (dataSecret ++ dataHash)
    have hdecrypted := o.length_decrypt encrypted params.key params.iv hdvd
    have hnonempty : o.aesCbcDecrypt encrypted params.key params.iv ≠ [] := by
      intro hnil
      rw [hnil, List.length_nil] at hdecrypted
      exact hne (List.length_eq_zero_iff.mp hdecrypted.symm)
    obtain ⟨result, hresult, hcases⟩ := checkDecrypted_spec hnonempty dataHash
    rw [hparams, Option.bind_some, decrypt, encryptOrDecrypt_eq hkey hiv,
      if_pos (Nat.mod_eq_zero_of_dvd hdvd), Option.bind_some]
    refine ⟨result, hresult, hcases.imp_right ?_⟩
    rintro ⟨hsha, padding, hdrop⟩
    exact ⟨_, padding, hsha, hdrop⟩

/-- Digests and a cipher to try the operations with. -/
def sampleOpenssl : Openssl where
  sha256 bytes := leBytes 32 (sumOf bytes)
  sha512 bytes := leBytes 64 (sumOf bytes)
  aesCbcEncrypt src _ _ := src.reverse
  aesCbcDecrypt src _ _ := src.reverse
  length_sha256 _ := length_leBytes _ _
  length_sha512 _ := length_leBytes _ _
  length_encrypt _ _ _ _ := List.length_reverse
  length_decrypt _ _ _ _ := List.length_reverse
  decrypt_encrypt _ _ _ _ := List.reverse_reverse _

end Bettergram.Passport
