import Bettergram.Storage.LocalFileRoundTrip

/-! # Encrypted arrays of local storage

`prepareEncrypted` puts the size in front of the content, pads it with random
bytes and encrypts it under a key made of its own SHA-1. `decryptLocal` checks
the digest and then the size.
-/

namespace Bettergram.Storage.Local

open Foundation Core FileWriteDescriptor

/-- SHA-1 and AES-IGE, which come from outside: a digest is 20 bytes, and the
cipher turns whole blocks into as many bytes and back. -/
structure Crypto where
  hashSha1 : List UInt8 → List UInt8
  aesIgeEncryptRaw : List UInt8 → List UInt8 → List UInt8 → List UInt8
  aesIgeDecryptRaw : List UInt8 → List UInt8 → List UInt8 → List UInt8
  length_hashSha1 : ∀ bytes, (hashSha1 bytes).length = 20
  length_encrypt : ∀ src key iv, 16 ∣ src.length →
    (aesIgeEncryptRaw src key iv).length = src.length
  length_decrypt : ∀ src key iv, 16 ∣ src.length →
    (aesIgeDecryptRaw src key iv).length = src.length
  decrypt_encrypt : ∀ src key iv, 16 ∣ src.length →
    aesIgeDecryptRaw (aesIgeEncryptRaw src key iv) key iv = src

namespace Crypto

/-- `AuthKey::prepareAES_oldmtp`: the key and the iv. -/
def prepareAESOldmtp (c : Crypto) (authKey msgKey : List UInt8) (send : Bool) :
    List UInt8 × List UInt8 :=
  let x := if send then 0 else 8
  let part (from_ count : ℕ) := (authKey.drop from_).take count
  let sha1A := c.hashSha1 (msgKey ++ part x 32)
  let sha1B := c.hashSha1 (part (32 + x) 16 ++ msgKey ++ part (48 + x) 16)
  let sha1C := c.hashSha1 (part (64 + x) 32 ++ msgKey)
  let sha1D := c.hashSha1 (msgKey ++ part (96 + x) 32)
  (sha1A.take 8 ++ (sha1B.drop 8).take 12 ++ (sha1C.drop 4).take 12,
    (sha1A.drop 8).take 12 ++ sha1B.take 8 ++ (sha1C.drop 16).take 4 ++ sha1D.take 8)

def aesEncryptLocal (c : Crypto) (src authKey key128 : List UInt8) : List UInt8 :=
  let aes := c.prepareAESOldmtp authKey key128 false
  c.aesIgeEncryptRaw src aes.1 aes.2

def aesDecryptLocal (c : Crypto) (src authKey key128 : List UInt8) : List UInt8 :=
  let aes := c.prepareAESOldmtp authKey key128 false
  c.aesIgeDecryptRaw src aes.1 aes.2

end Crypto

structure EncryptedDescriptor where
  data : List UInt8
  pos : ℕ
deriving DecidableEq

/-- The descriptor made with a size: room for the length, and the size only reserves. -/
def EncryptedDescriptor.ofSize (_size : UInt32) : EncryptedDescriptor := ⟨List.replicate 4 0, 4⟩

def EncryptedDescriptor.write (d : EncryptedDescriptor) (bytes : List UInt8) :
    EncryptedDescriptor :=
  ⟨overwrite d.data d.pos bytes, d.pos + bytes.length⟩

/-- The random bytes behind the data. -/
def paddingOf (random : ℕ → UInt8) (size : ℕ) : List UInt8 :=
  if size % 16 = 0 then [] else (List.range (16 - size % 16)).map random

def prepareEncrypted (c : Crypto) (authKey : List UInt8) (random : ℕ → UInt8)
    (d : EncryptedDescriptor) : List UInt8 :=
  let size := d.data.length
  let toEncrypt := overwrite (d.data ++ paddingOf random size) 0 (leBytes 4 size)
  let key128 := (c.hashSha1 toEncrypt).take 16
  key128 ++ c.aesEncryptLocal toEncrypt authKey key128

def decryptLocal (c : Crypto) (authKey encrypted : List UInt8) : Option EncryptedDescriptor :=
  if encrypted.length ≤ 16 ∨ encrypted.length % 16 ≠ 0 then none
  else
    let fullLen := UInt32.ofNat (encrypted.length - 16)
    let encryptedKey := encrypted.take 16
    let decrypted := c.aesDecryptLocal (encrypted.drop 16) authKey encryptedKey
    if (c.hashSha1 decrypted).take 16 ≠ encryptedKey then none
    else
      let dataLen := UInt32.ofNat (leNat (decrypted.take 4))
      if UInt32.ofNat decrypted.length < dataLen ∨ dataLen ≤ fullLen - 16 ∨ dataLen < 4 then none
      else some ⟨decrypted.take dataLen.toNat, 4⟩

/-- The data `readEncryptedFile` leaves and where its stream stands. -/
def readEncryptedFile (transform : Compression) (c : Crypto)
    (authKey : List UInt8) (safe : Bool) (disk : Disk) : Option (FileRead × ℕ) × Disk :=
  let file := readFile transform safe disk
  match file.1 with
  | none => (none, file.2)
  | some read =>
    match decryptLocal c authKey (readData ⟨read.data, true⟩).1.bytes with
    | none => (none, file.2)
    | some d => (some (⟨read.version, d.data⟩, d.pos), file.2)

variable {c : Crypto} {authKey : List UInt8}

/-! ### The descriptor -/

theorem foldl_write (pieces : List (List UInt8)) (d : EncryptedDescriptor)
    (hpos : d.pos = d.data.length) :
    (pieces.foldl EncryptedDescriptor.write d).data = d.data ++ pieces.flatten := by
  induction pieces generalizing d with
  | nil => simp
  | cons piece pieces ih =>
    have hwrite : (d.write piece).data = d.data ++ piece := by
      rw [EncryptedDescriptor.write, hpos, overwrite, List.take_length,
        List.drop_of_length_le (by omega), List.append_nil]
    have hnext : (d.write piece).pos = (d.write piece).data.length := by
      rw [hwrite, List.length_append, ← hpos]
      rfl
    rw [List.foldl_cons, ih _ hnext, hwrite, List.flatten_cons, List.append_assoc]

theorem length_paddingOf (random : ℕ → UInt8) (size : ℕ) :
    (size + (paddingOf random size).length) % 16 = 0 ∧ (paddingOf random size).length < 16 := by
  unfold paddingOf
  split
  · rename_i haligned
    exact ⟨by simpa using haligned, by simp⟩
  · rw [List.length_map, List.length_range]
    omega

/-! ### Encrypted and decrypted -/

/-- What `prepareEncrypted` encrypts: the size, the content and the padding. -/
theorem decryptLocal_prepareEncrypted {d : EncryptedDescriptor} {content : List UInt8}
    (random : ℕ → UInt8) (hdata : ∃ room : List UInt8, room.length = 4 ∧ d.data = room ++ content)
    (hsize : (prepareEncrypted c authKey random d).length < 2 ^ 31) :
    decryptLocal c authKey (prepareEncrypted c authKey random d) =
      some ⟨leBytes 4 (4 + content.length) ++ content, 4⟩ := by
  obtain ⟨room, hroom, hdata⟩ := hdata
  have hlength : d.data.length = 4 + content.length := by
    rw [hdata, List.length_append, hroom]
  obtain ⟨haligned, hshort⟩ := length_paddingOf random (4 + content.length)
  have hplain : overwrite (d.data ++ paddingOf random d.data.length) 0
      (leBytes 4 d.data.length) =
      leBytes 4 (4 + content.length) ++ content ++ paddingOf random (4 + content.length) := by
    rw [hlength, overwrite, length_leBytes, hdata, List.append_assoc, List.append_assoc,
      List.take_zero, List.nil_append, Nat.zero_add, List.drop_left' hroom, List.append_assoc]
  have hfull : (leBytes 4 (4 + content.length) ++ content ++
      paddingOf random (4 + content.length)).length =
      4 + content.length + (paddingOf random (4 + content.length)).length := by
    rw [List.length_append, List.length_append, length_leBytes]
  unfold prepareEncrypted at hsize ⊢
  dsimp only at hsize ⊢
  rw [hplain] at hsize ⊢
  generalize hgen : leBytes 4 (4 + content.length) ++ content ++
    paddingOf random (4 + content.length) = plain at hfull hsize
  have hdvd : 16 ∣ plain.length := Nat.dvd_of_mod_eq_zero (by rw [hfull]; exact haligned)
  have hkey : ((c.hashSha1 plain).take 16).length = 16 :=
    List.length_take_of_le (by rw [c.length_hashSha1]; decide)
  have hcipher : (c.aesEncryptLocal plain authKey ((c.hashSha1 plain).take 16)).length =
      plain.length := c.length_encrypt _ _ _ hdvd
  have hplainLength : plain.length < 2 ^ 32 := by
    rw [List.length_append, hcipher] at hsize
    omega
  have hlong : 16 ≤ plain.length := by omega
  unfold decryptLocal
  rw [if_neg (by rw [List.length_append, hkey, hcipher]; omega)]
  dsimp only
  rw [List.take_left' hkey, List.drop_left' hkey]
  have hdecrypted : c.aesDecryptLocal
      (c.aesEncryptLocal plain authKey ((c.hashSha1 plain).take 16)) authKey
        ((c.hashSha1 plain).take 16) = plain := c.decrypt_encrypt _ _ _ hdvd
  rw [hdecrypted, if_neg (not_not.mpr rfl), List.length_append, hkey, hcipher,
    Nat.add_sub_cancel_left]
  have hhead : plain.take 4 = leBytes 4 (4 + content.length) := by
    rw [← hgen, List.append_assoc]
    exact List.take_left' (length_leBytes _ _)
  have hdataLen : (UInt32.ofNat (leNat (plain.take 4))).toNat = 4 + content.length := by
    rw [hhead, leNat_leBytes_of_lt (by norm_num; omega), UInt32.toNat_ofNat',
      Nat.mod_eq_of_lt (by omega)]
  have hfullLen : (UInt32.ofNat plain.length).toNat = plain.length := by
    rw [UInt32.toNat_ofNat', Nat.mod_eq_of_lt hplainLength]
  have hless : (UInt32.ofNat plain.length - 16).toNat = plain.length - 16 := by
    rw [UInt32.toNat_sub_of_le _ _ (by
      rw [UInt32.le_iff_toNat_le, hfullLen]
      exact hlong), hfullLen]
    rfl
  rw [if_neg (by
    rw [UInt32.lt_iff_toNat_lt, UInt32.le_iff_toNat_le, UInt32.lt_iff_toNat_lt, hdataLen, hfullLen,
      hless]
    change ¬ (_ ∨ _ ∨ 4 + content.length < 4)
    omega), hdataLen, ← hgen]
  congr 2
  exact List.take_left' (by rw [List.length_append, length_leBytes])

/-- Whatever comes in, the data that comes out is at least the length field and
at most all that was decrypted. -/
theorem decryptLocal_bounds {encrypted : List UInt8} {d : EncryptedDescriptor}
    (hsome : decryptLocal c authKey encrypted = some d) :
    4 ≤ d.data.length ∧ d.data.length ≤ encrypted.length - 16 ∧ d.pos = 4 := by
  unfold decryptLocal at hsome
  split at hsome
  · cases hsome
  rename_i haligned
  dsimp only at hsome
  split at hsome
  · cases hsome
  split at hsome
  · cases hsome
  rename_i hbounds
  obtain rfl := Option.some.inj hsome
  have hdvd : 16 ∣ (encrypted.drop 16).length := by
    rw [List.length_drop]
    omega
  have hlength : (c.aesDecryptLocal (encrypted.drop 16) authKey (encrypted.take 16)).length =
      encrypted.length - 16 := by
    rw [← List.length_drop]
    exact c.length_decrypt _ _ _ hdvd
  generalize c.aesDecryptLocal (encrypted.drop 16) authKey (encrypted.take 16) = decrypted at *
  generalize UInt32.ofNat (leNat (decrypted.take 4)) = dataLen at *
  rw [UInt32.lt_iff_toNat_lt, UInt32.le_iff_toNat_le, UInt32.lt_iff_toNat_lt,
    UInt32.toNat_ofNat'] at hbounds
  have hfour : (4 : UInt32).toNat = 4 := rfl
  have hmod := Nat.mod_le decrypted.length (2 ^ 32)
  dsimp only
  rw [List.length_take]
  omega


/-- A content written in any pieces is prepared and restored. -/
theorem decryptLocal_written (c : Crypto) (authKey : List UInt8) (size : UInt32)
    (pieces : List (List UInt8)) (random : ℕ → UInt8)
    (hsize : (prepareEncrypted c authKey random
      (pieces.foldl EncryptedDescriptor.write (.ofSize size))).length < 2 ^ 31) :
    decryptLocal c authKey (prepareEncrypted c authKey random
      (pieces.foldl EncryptedDescriptor.write (.ofSize size))) =
        some ⟨leBytes 4 (4 + pieces.flatten.length) ++ pieces.flatten, 4⟩ :=
  decryptLocal_prepareEncrypted random
    ⟨List.replicate 4 0, rfl, foldl_write pieces (.ofSize size) rfl⟩ hsize

/-- An encrypted array that was written to a file comes back with the stream behind its length. -/
theorem readEncryptedFile_finish {transform : Compression} (safe : Bool)
    (disk : Disk) (now : ℕ) (size : UInt32) (pieces : List (List UInt8)) (random : ℕ → UInt8)
    (hfits : Fits [some (prepareEncrypted c authKey random
      (pieces.foldl EncryptedDescriptor.write (.ofSize size)))]) :
    (readEncryptedFile transform c authKey safe
      ((ofArrays transform (fun _ => none) safe true disk [some (prepareEncrypted c authKey random
        (pieces.foldl EncryptedDescriptor.write (.ofSize size)))]).finish disk now)).1 =
      some (⟨appVersion, leBytes 4 (4 + pieces.flatten.length) ++ pieces.flatten⟩, 4) := by
  have hread := readFile_finish transform safe disk hfits now
  have hsize : (prepareEncrypted c authKey random
      (pieces.foldl EncryptedDescriptor.write (.ofSize size))).length < 2 ^ 31 := by
    have hlength := length_arrayBytes (some (prepareEncrypted c authKey random
      (pieces.foldl EncryptedDescriptor.write (.ofSize size))))
    rw [Fits, streamBytes, List.flatMap_singleton, hlength, QByteArray.bytes,
      Option.getD_some] at hfits
    omega
  have hdecrypt := decryptLocal_written c authKey size pieces random hsize
  generalize prepareEncrypted c authKey random
    (pieces.foldl EncryptedDescriptor.write (.ofSize size)) = encrypted at *
  have hdata := readData_arrayBytes (some encrypted) [] hsize
  unfold readEncryptedFile
  dsimp only
  rw [hread]
  dsimp only
  rw [streamBytes, List.flatMap_singleton]
  rw [List.append_nil] at hdata
  rw [hdata]
  dsimp only
  rw [QByteArray.bytes, Option.getD_some, hdecrypt]

variable (c authKey)

/-- Local storage gives back what was stored, and decryption of anything else
gives nothing or data of a length in range. -/
theorem local_round_trip (transform : Compression) :
    (∀ safe disk arrays now, Fits arrays →
      ∃ read, (readFile transform safe
          ((ofArrays transform (fun _ => none) safe true disk arrays).finish disk now)).1 =
            some read ∧
        readArrays arrays.length ⟨read.data, true⟩ = (arrays, ⟨[], true⟩)) ∧
    (∀ (size : UInt32) (pieces : List (List UInt8)) (random : ℕ → UInt8),
      (prepareEncrypted c authKey random
        (pieces.foldl EncryptedDescriptor.write (.ofSize size))).length < 2 ^ 31 →
      decryptLocal c authKey (prepareEncrypted c authKey random
        (pieces.foldl EncryptedDescriptor.write (.ofSize size))) =
          some ⟨leBytes 4 (4 + pieces.flatten.length) ++ pieces.flatten, 4⟩) ∧
    (∀ encrypted d, decryptLocal c authKey encrypted = some d →
      4 ≤ d.data.length ∧ d.data.length ≤ encrypted.length - 16) := by
  refine ⟨?_, decryptLocal_written c authKey, fun encrypted d hsome => ?_⟩
  · intro safe disk arrays now hfits
    exact ⟨_, readFile_finish transform safe disk hfits now, readArrays_streamBytes hfits⟩
  · obtain ⟨hlow, hhigh, -⟩ := decryptLocal_bounds hsome
    exact ⟨hlow, hhigh⟩


/-- A digest and a cipher to try the operations with. -/
def sampleCrypto : Crypto where
  hashSha1 bytes := leBytes 4 bytes.length ++ hashMd5 md5Transform bytes
  aesIgeEncryptRaw src key _ := src.map fun byte => byte ^^^ key.headD 0
  aesIgeDecryptRaw src key _ := src.map fun byte => byte ^^^ key.headD 0
  length_hashSha1 bytes := by
    rw [List.length_append, length_leBytes, hashMd5, HashMd5.length_result]
  length_encrypt src key iv _ := List.length_map _
  length_decrypt src key iv _ := List.length_map _
  decrypt_encrypt src key iv _ := by
    have hcancel : ∀ byte : UInt8, byte ^^^ key.headD 0 ^^^ key.headD 0 = byte := by
      intro byte
      rw [UInt8.xor_assoc, UInt8.xor_self, UInt8.xor_zero]
    rw [List.map_map]
    exact (List.map_congr_left fun byte _ => hcancel byte).trans (List.map_id src)

theorem local_round_trip_three :
    (∃ read, (readFile md5Transform true
        ((ofArrays md5Transform (fun _ => none) true true .empty
          [none, some [], some [1, 2, 3]]).finish .empty 7)).1 = some read ∧
      readArrays 3 ⟨read.data, true⟩ = ([none, some [], some [1, 2, 3]], ⟨[], true⟩)) ∧
    decryptLocal sampleCrypto [5, 6, 7] (prepareEncrypted sampleCrypto [5, 6, 7] (fun _ => 9)
      ([[1, 2], [3]].foldl EncryptedDescriptor.write (.ofSize 3))) =
        some ⟨[7, 0, 0, 0, 1, 2, 3], 4⟩ := by
  obtain ⟨hfile, hcrypto, -⟩ := local_round_trip sampleCrypto [5, 6, 7] md5Transform
  exact ⟨hfile true .empty [none, some [], some [1, 2, 3]] 7 (by decide),
    hcrypto 3 [[1, 2], [3]] (fun _ => 9) (by decide)⟩

end Bettergram.Storage.Local
