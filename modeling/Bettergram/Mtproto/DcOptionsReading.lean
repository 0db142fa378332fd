import Bettergram.Mtproto.DcOptionsDifference
import Bettergram.Mtproto.DcOptions

/-! # What the reader takes

A string is complete when it is a header, as many options and, when there is
something behind them, as many keys. A complete string is read as a whole.
-/

namespace Bettergram.Mtproto
open Foundation DataStream

namespace DcOptions

variable {Key : Type} {rsa : RsaKeys Key} {version : Int32}

/-! ## One option -/

/-- What the reader takes of an endpoint. -/
structure Limits (e : Endpoint) : Prop where
  ip : 0 < e.ip.length ∧ e.ip.length ≤ 45
  secret : e.secret.length ≤ 32

/-- An option as it stands in a string of the version; the first one had no secrets. -/
def writtenAs (version : Int32) (e : Endpoint) : List UInt8 :=
  writeInt32 e.id ++ (writeInt32 e.flags.toInt32 ++ (writeInt32 e.port ++
    (writeInt32 (Int32.ofNat e.ip.length) ++ (e.ip ++
      if 0 < version then writeInt32 (Int32.ofNat e.secret.length) ++ e.secret else []))))

theorem writtenAs_kVersion (e : Endpoint) : writtenAs kVersion e = writeEndpoint e := by
  have hpos : 0 < kVersion := by decide
  rw [writtenAs, if_pos hpos, writeEndpoint]
  simp only [List.append_assoc]

theorem toInt_length {n : ℕ} (h : n ≤ 45) : (Int32.ofNat n).toInt = n :=
  Int32.toInt_ofNat_of_lt (by omega)

theorem readOver_append (buffer bytes rest : List UInt8) (hlength : buffer.length = bytes.length)
    (ok : Bool) : readOver buffer ⟨bytes ++ rest, ok⟩ = (bytes, ⟨rest, ok⟩) := by
  rw [readOver, hlength, readRaw_append]
  dsimp only
  rw [← hlength, List.drop_length, List.append_nil]

theorem readOver_fst_length (buffer : List UInt8) (d : DataStream) :
    (readOver buffer d).1.length = buffer.length := by
  simp only [readOver, readRaw, List.length_append, List.length_drop, List.length_take]
  omega

theorem readSecret_written {secret : List UInt8} (h : secret.length ≤ 32) (rest : List UInt8)
    (ok : Bool) : readSecret ⟨writeInt32 (Int32.ofNat secret.length) ++ (secret ++ rest), ok⟩ =
      some (secret, ⟨rest, ok⟩) := by
  have htoInt := toInt_length (h.trans (by decide))
  have hsize : ¬ (Int32.ofNat secret.length < 0 ∨
      kMaxSecretSize < Int32.ofNat secret.length) := by
    rw [Int32.lt_iff_toInt_lt, Int32.lt_iff_toInt_lt, htoInt, kMaxSecretSize]
    simp only [Int32.reduceToInt]
    omega
  rw [readSecret, readInt32_write]
  dsimp only
  rw [if_neg hsize, htoInt, Int.toNat_natCast]
  exact congrArg some (readOver_append _ _ _ (List.length_replicate) ok)

/-- An option within the limits is read as it was written. -/
theorem readEndpoint_written {e : Endpoint} (h : Limits e) (hsecret : ¬ 0 < version → e.secret = [])
    (rest : List UInt8) :
    readEndpoint version ⟨writtenAs version e ++ rest, true⟩ = some (e, ⟨rest, true⟩) := by
  have htoInt := toInt_length h.ip.2
  have hpos := h.ip.1
  have hle := h.ip.2
  have hsize : ¬ (Int32.ofNat e.ip.length ≤ 0 ∨ kMaxIpSize < Int32.ofNat e.ip.length) := by
    rw [Int32.le_iff_toInt_le, Int32.lt_iff_toInt_lt, htoInt, kMaxIpSize]
    simp only [Int32.reduceToInt]
    omega
  rw [readEndpoint, writtenAs]
  simp only [List.append_assoc, readInt32_write]
  rw [if_neg hsize, htoInt, Int.toNat_natCast, readOver_append _ _ _ (List.length_replicate)]
  dsimp only
  by_cases hversion : 0 < version
  · simp only [if_pos hversion, List.append_assoc, readSecret_written h.secret]
    simp
  · simp only [if_neg hversion, List.nil_append, if_true]
    rw [UInt32.toUInt32_toInt32, ← hsecret hversion]

theorem readSecret_limit {d d' : DataStream} {secret : List UInt8}
    (h : readSecret d = some (secret, d')) : secret.length ≤ 32 := by
  rw [readSecret] at h
  dsimp only at h
  split_ifs at h with hsize
  rw [not_or, Int32.not_lt, Int32.not_lt, Int32.le_iff_toInt_le, Int32.le_iff_toInt_le,
    kMaxSecretSize] at hsize
  simp only [Int32.reduceToInt] at hsize
  have hlength := readOver_fst_length (List.replicate d.readInt32.1.toInt.toNat 0) d.readInt32.2
  rw [Option.some.inj h, List.length_replicate] at hlength
  dsimp only at hlength
  omega

/-- Whatever is read is within the limits. -/
theorem readEndpoint_limits {d d' : DataStream} {e : Endpoint}
    (h : readEndpoint version d = some (e, d')) : Limits e := by
  rw [readEndpoint] at h
  dsimp only at h
  split_ifs at h with hsize hversion
  all_goals
    rw [not_or, Int32.not_le, Int32.not_lt, Int32.le_iff_toInt_le, Int32.lt_iff_toInt_lt,
      kMaxIpSize] at hsize
    simp only [Int32.reduceToInt] at hsize
    generalize d.readInt32.2.readInt32.2.readInt32.2.readInt32 = size at h hsize
    have hlength := readOver_fst_length (List.replicate size.1.toInt.toNat 32) size.2
    rw [List.length_replicate] at hlength
  · split at h
    · simp at h
    · next secret d'' hread =>
      split_ifs at h
      obtain ⟨rfl, -⟩ := Prod.mk.inj (Option.some.inj h)
      refine ⟨?_, readSecret_limit hread⟩
      dsimp only
      omega
  · dsimp only at h
    split_ifs at h
    obtain ⟨rfl, -⟩ := Prod.mk.inj (Option.some.inj h)
    refine ⟨?_, Nat.zero_le _⟩
    dsimp only
    omega

/-! ## All options -/

theorem readEndpoints_written {options : List Endpoint} (hlimits : ∀ e ∈ options, Limits e)
    (hsecret : ∀ e ∈ options, ¬ 0 < version → e.secret = []) (rest : List UInt8) :
    readEndpoints version options.length
      ⟨options.flatMap (writtenAs version) ++ rest, true⟩ = (options, some ⟨rest, true⟩) := by
  induction options with
  | nil => rfl
  | cons e options ih =>
    rw [List.length_cons, readEndpoints, List.flatMap_cons, List.append_assoc,
      readEndpoint_written (hlimits e (by simp)) (hsecret e (by simp)), Option.elim_some,
      ih (fun x hx => hlimits x (by simp [hx])) fun x hx => hsecret x (by simp [hx])]
    rfl

theorem readEndpoints_limits (version : Int32) (count : ℕ) (d : DataStream) :
    ∀ e ∈ (readEndpoints version count d).1, Limits e := by
  induction count generalizing d with
  | zero => simp [readEndpoints]
  | succ count ih =>
    rw [readEndpoints]
    cases hread : readEndpoint version d with
    | none => simp
    | some y =>
      intro x hx
      obtain rfl | hx := List.mem_cons.mp hx
      · exact readEndpoint_limits hread
      · exact ih y.2 x hx

/-! ## Keys -/

/-- Bytes as they stand in a string; no bytes may also be a null array. -/
inductive IsBytes : List UInt8 → List UInt8 → Prop
  | null : IsBytes [] (writeInt32 (-1))
  | sized (bytes : List UInt8) (hlength : bytes.length < 2 ^ 32 - 1) :
      IsBytes bytes (writeInt32 (Int32.ofNat bytes.length) ++ bytes)

/-- A valid key as it stands in a string. -/
inductive IsKey (rsa : RsaKeys Key) : DcId × Key → List UInt8 → Prop
  | intro {dcId : DcId} {key : Key} {n e nBytes eBytes : List UInt8} (hn : IsBytes n nBytes)
      (he : IsBytes e eBytes) (hkey : rsa.ofNumbers n e = some key) :
      IsKey rsa (dcId, key) (writeInt32 dcId ++ (nBytes ++ eBytes))

theorem rounds_ofNat {n : ℕ} (h : n < 2 ^ 32) : rounds (Int32.ofNat n) = n := by
  have hcast : (Int32.ofNat n).toUInt32 = UInt32.ofNat n := rfl
  rw [rounds, hcast, UInt32.toNat_ofNat', Nat.mod_eq_of_lt h]

theorem readBytes_written {bytes encoded : List UInt8} (h : IsBytes bytes encoded)
    (rest : List UInt8) : readBytes ⟨encoded ++ rest, true⟩ = (bytes, ⟨rest, true⟩) := by
  cases h with
  | null =>
    rw [readBytes, readInt32_write]
    rfl
  | sized _ hlength =>
    have hnat : (Int32.ofNat bytes.length).toUInt32.toNat = bytes.length :=
      rounds_ofNat (by omega)
    have hne : Int32.ofNat bytes.length ≠ -1 := by
      intro heq
      rw [heq] at hnat
      have hmax : (-1 : Int32).toUInt32.toNat = 2 ^ 32 - 1 := by decide
      omega
    rw [readBytes, List.append_assoc, readInt32_write]
    dsimp only
    have hgood : ¬ ((!true) = true ∨ Int32.ofNat bytes.length = -1) := by
      rintro (hok | heq)
      · exact absurd hok (by decide)
      · exact hne heq
    rw [if_neg hgood, hnat, if_neg (by rw [List.length_append]; omega), readRaw_append]

theorem readKeys_written {keys : List (DcId × Key)} {encoded : List (List UInt8)}
    (h : List.Forall₂ (IsKey rsa) keys encoded) (rest : List UInt8) :
    readKeys rsa keys.length ⟨encoded.flatten ++ rest, true⟩ =
      keys.map fun key => (key.1, some key.2) := by
  induction h with
  | nil => rfl
  | @cons key bytes keys encoded hkey _ ih =>
    cases hkey with
    | intro hn he hkey =>
      rw [List.length_cons, readKeys, List.flatten_cons]
      simp only [List.append_assoc, readInt32_write, readBytes_written hn, readBytes_written he]
      rw [if_pos trivial, hkey, ih]
      rfl

/-! ## A whole string -/

/-- The version and the number of options; the first version has no number of its own. -/
inductive IsHead : Int32 → Int32 → List UInt8 → Prop
  | new (minusVersion count : Int32) (hneg : minusVersion < 0) (hpos : 0 < -minusVersion) :
      IsHead (-minusVersion) count (writeInt32 minusVersion ++ writeInt32 count)
  | old (count : Int32) (hold : ¬ 0 < if count < 0 then -count else 0) :
      IsHead (if count < 0 then -count else 0) count (writeInt32 count)

/-- What stands behind the options. -/
inductive IsConfig (rsa : RsaKeys Key) : List (DcId × Key) → List UInt8 → Prop
  | none : IsConfig rsa [] []
  | some (keys : List (DcId × Key)) (encoded : List (List UInt8)) (count : Int32)
      (rest : List UInt8) (hcount : rounds count = keys.length)
      (hkeys : List.Forall₂ (IsKey rsa) keys encoded) :
      IsConfig rsa keys (writeInt32 count ++ (encoded.flatten ++ rest))

/-- A string that says some options and keys and is complete. -/
inductive Complete (rsa : RsaKeys Key) (options : List Endpoint) (keys : List (DcId × Key)) :
    List UInt8 → Prop
  | intro (version count : Int32) (head tail : List UInt8) (hhead : IsHead version count head)
      (hcount : rounds count = options.length) (hlimits : ∀ e ∈ options, Limits e)
      (hsecret : ∀ e ∈ options, ¬ 0 < version → e.secret = []) (htail : IsConfig rsa keys tail) :
      Complete rsa options keys (head ++ (options.flatMap (writtenAs version) ++ tail))

theorem readHeader_written {version count : Int32} {head : List UInt8}
    (h : IsHead version count head) (rest : List UInt8) :
    readHeader (head ++ rest) = (version, count, ⟨rest, true⟩) := by
  cases h with
  | new minusVersion _ hneg hpos =>
    rw [readHeader, List.append_assoc, readInt32_write]
    dsimp only
    rw [if_pos hneg, if_pos hpos, readInt32_write]
  | old _ hold =>
    rw [readHeader, readInt32_write]
    dsimp only
    rw [if_neg hold]

theorem readCdnConfig_written {keys : List (DcId × Key)} {tail : List UInt8}
    (h : IsConfig rsa keys tail) :
    readCdnConfig rsa ⟨tail, true⟩ = keys.map fun key => (key.1, some key.2) := by
  cases h with
  | none => rfl
  | some _ encoded count rest hcount hkeys =>
    have hne : writeInt32 count ++ (encoded.flatten ++ rest) ≠ [] := by
      intro hnil
      have hlength := congrArg List.length hnil
      simp at hlength
    rw [readCdnConfig, if_neg hne, readInt32_write]
    dsimp only
    rw [if_pos rfl, hcount, readKeys_written hkeys]

/-- The options in place of those that were stored, and the keys with the others. -/
def loaded (rsa : RsaKeys Key) (options : List Endpoint) (keys : List (DcId × Key))
    (s : DcOptions Key) : DcOptions Key :=
  { s with
    data := DcData.empty.applyAll options
    cdnPublicKeys := keys.foldl (addKey rsa) s.cdnPublicKeys }

/-- A complete string is loaded as a whole. -/
theorem constructFromSerialized_complete {options : List Endpoint} {keys : List (DcId × Key)}
    {serialized : List UInt8} (h : Complete rsa options keys serialized) (s : DcOptions Key) :
    constructFromSerialized rsa serialized s = loaded rsa options keys s := by
  cases h with
  | intro version count head tail hhead hcount hlimits hsecret htail =>
    have hvalid : (keys.map fun key => (key.1, some key.2)).filterMap
        (fun key => key.2.map fun k => (key.1, k)) = keys := by
      simp [List.filterMap_map]
    rw [constructFromSerialized, readHeader_written hhead]
    dsimp only
    rw [if_neg (by simp), hcount, readEndpoints_written hlimits hsecret]
    dsimp only [Option.map_some, Option.getD_some]
    rw [readCdnConfig_written htail, hvalid, loaded]

end DcOptions

end Bettergram.Mtproto
