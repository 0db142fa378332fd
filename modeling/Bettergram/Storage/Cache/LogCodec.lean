import Bettergram.Storage.Cache.BinlogReader

/-! # The log as a list of records

A log is cut into records the same way whatever the block size, and the bytes
of a record decode to the record they were written from.
-/

namespace Bettergram.Storage.Cache
open Foundation

/-! ## Encoding and decoding -/

theorem field_of_drop {o w : ℕ} {bs : List UInt8} (n : ℕ) (rest : List UInt8)
    (h : bs.drop o = leBytes w n ++ rest) : field o w bs = n % 256 ^ w := by
  rw [field, h, List.take_left' (length_leBytes w n), leNat_leBytes]

@[simp] theorem Key.length_encode (k : Key) : k.encode.length = 16 := by simp [Key.encode]

theorem Key.decode_encode (k : Key) (rest : List UInt8) : Key.decode (k.encode ++ rest) = k := by
  have hhigh : field 0 8 (k.encode ++ rest) = k.high.toNat % 256 ^ 8 :=
    field_of_drop _ (leBytes 8 k.low.toNat ++ rest) (by simp [Key.encode])
  have hlow : field 8 8 (k.encode ++ rest) = k.low.toNat % 256 ^ 8 :=
    field_of_drop _ rest (by simp [Key.encode])
  have h₁ := k.high.toNat_lt
  have h₂ := k.low.toNat_lt
  rw [Key.decode, hhigh, hlow, Nat.mod_eq_of_lt (by omega), Nat.mod_eq_of_lt (by omega)]
  simp

@[simp] theorem EstimatedTimePoint.length_encode (t : EstimatedTimePoint) :
    t.encode.length = 12 := by simp [EstimatedTimePoint.encode]

theorem EstimatedTimePoint.decode_encode (t : EstimatedTimePoint) (rest : List UInt8) :
    EstimatedTimePoint.decode (t.encode ++ rest) = t := by
  have hrel : field 0 8 (t.encode ++ rest) = t.relative.toNat % 256 ^ 8 :=
    field_of_drop _ (leBytes 4 t.system.toNat ++ rest) (by simp [EstimatedTimePoint.encode])
  have hsys : field 8 4 (t.encode ++ rest) = t.system.toNat % 256 ^ 4 :=
    field_of_drop _ rest (by simp [EstimatedTimePoint.encode])
  have h₁ := t.relative.toNat_lt
  have h₂ := t.system.toNat_lt
  rw [EstimatedTimePoint.decode, hrel, hsys, Nat.mod_eq_of_lt (by omega),
    Nat.mod_eq_of_lt (by omega)]
  simp

namespace Store

/-- The record has a byte code: its size fits, and it has a time point only when tracked. -/
def Fits (tracked : Bool) (r : Store) : Prop :=
  r.size < kDataSizeLimit ∧ (tracked = false → r.time = {})

instance (tracked : Bool) (r : Store) : Decidable (r.Fits tracked) := by
  unfold Fits
  infer_instance

@[simp] theorem length_encode (tracked : Bool) (r : Store) :
    (r.encode tracked).length = sizeOf tracked := by
  cases tracked <;> simp [encode, sizeOf]

theorem decode_encode {tracked : Bool} {r : Store} (h : r.Fits tracked) (rest : List UInt8) :
    decode tracked (r.encode tracked ++ rest) = r := by
  obtain ⟨hsize, htime⟩ := h
  -- the bytes before the place, before the key and before the time point
  let start := [0x01, r.tag] ++ leBytes 3 r.size
  let head := start ++ r.place.toList ++ leBytes 4 r.checksum.toNat
  let tail := (if tracked then r.time.encode ++ leBytes 4 0 else []) ++ rest
  have hstart : start.length = 5 := by simp [start]
  have hhead : head.length = 16 := by simp [head, hstart]
  have hbytes : r.encode tracked ++ rest = head ++ (r.key.encode ++ tail) := by
    simp [encode, head, start, tail]
  have hkey : (head ++ (r.key.encode ++ tail)).drop 16 = r.key.encode ++ tail :=
    List.drop_left' hhead
  have hat : (head ++ (r.key.encode ++ tail)).drop 32 = tail := by
    rw [← List.append_assoc]
    exact List.drop_left' (by simp [hhead])
  have htag : (head ++ (r.key.encode ++ tail)).getD 1 0 = r.tag := by simp [head, start]
  have hsizef : field 2 3 (head ++ (r.key.encode ++ tail)) = r.size := by
    rw [field_of_drop r.size (r.place.toList ++ leBytes 4 r.checksum.toNat ++
      (r.key.encode ++ tail)) (by simp [head, start])]
    exact Nat.mod_eq_of_lt hsize
  have hsum : field 12 4 (head ++ (r.key.encode ++ tail)) = r.checksum.toNat := by
    have hlt := r.checksum.toNat_lt
    have hdrop : (head ++ (r.key.encode ++ tail)).drop 12 =
        leBytes 4 r.checksum.toNat ++ (r.key.encode ++ tail) := by
      simp only [head, List.append_assoc]
      rw [← List.append_assoc start]
      exact List.drop_left' (by simp [hstart])
    rw [field_of_drop _ _ hdrop]
    exact Nat.mod_eq_of_lt (by omega)
  have hplace : (Vector.ofFn fun i : Fin 7 =>
      (head ++ (r.key.encode ++ tail)).getD (5 + i) 0) = r.place := by
    apply Vector.ext
    intro i hi
    have hi' : i < r.place.toList.length := by simpa using hi
    simp only [Vector.getElem_ofFn, List.getD_eq_getElem?_getD, head, List.append_assoc]
    rw [List.getElem?_append_right (by omega), hstart, Nat.add_sub_cancel_left,
      List.getElem?_append_left hi']
    simp [hi]
  have htimed : (if tracked then EstimatedTimePoint.decode tail else {}) = r.time := by
    cases tracked with
    | false => simp [htime rfl]
    | true => simp only [tail, if_true, List.append_assoc, EstimatedTimePoint.decode_encode]
  simp only [decode, hbytes, htag, hsizef, hsum, hkey, Key.decode_encode, hat, htimed, hplace,
    UInt32.ofNat_toNat]

end Store

theorem length_flatMap_const {α : Type} {w : ℕ} {encode : α → List UInt8}
    (hlen : ∀ a, (encode a).length = w) (parts : List α) :
    (parts.flatMap encode).length = parts.length * w := by
  induction parts with
  | nil => simp
  | cons a parts ih =>
    rw [List.flatMap_cons, List.length_append, hlen, ih, List.length_cons]
    ring

theorem decodeParts_encode {α : Type} {w : ℕ} (encode : α → List UInt8)
    (decode : List UInt8 → α) (hlen : ∀ a, (encode a).length = w) (parts : List α)
    (hparts : ∀ a ∈ parts, decode (encode a) = a) :
    decodeParts w decode parts.length (parts.flatMap encode) = parts := by
  induction parts with
  | nil => rfl
  | cons a parts ih =>
    rw [List.flatMap_cons, List.length_cons, decodeParts, List.take_left' (hlen a),
      List.drop_left' (hlen a), hparts a (by simp), ih fun b hb => hparts b (by simp [hb])]

namespace Record

/-- What the code writes as a record, and the reader accepts. -/
def Fits (settings : Settings) : Record → Prop
  | store r => r.Fits settings.trackEstimatedTime
  | multiStore parts => parts ≠ [] ∧ parts.length ≤ settings.maxBundledRecords ∧
      ∀ r ∈ parts, r.Fits settings.trackEstimatedTime
  | multiRemove keys => keys ≠ [] ∧ keys.length ≤ settings.maxBundledRecords
  | multiAccess _ keys =>
    settings.trackEstimatedTime = true ∧ keys.length ≤ settings.maxBundledRecords

instance (settings : Settings) (r : Record) : Decidable (r.Fits settings) := by
  cases r <;> unfold Fits <;> infer_instance

variable {settings : Settings}

theorem multiHead_eq (type : UInt8) {count : ℕ} (hcount : count ≤ settings.maxBundledRecords)
    (rest : List UInt8) (hrest : rest.length = 12) (parts : List UInt8) :
    let bs := multiHead type count rest ++ parts
    bs.headD 0 = type ∧ field 1 3 bs = count ∧ bs.drop 4 = rest ++ parts ∧ bs.drop 16 = parts ∧
      bs.length = 16 + parts.length := by
  intro bs
  have hlt := settings.maxBundledRecords_lt
  refine ⟨rfl, ?_, ?_, ?_, ?_⟩
  · rw [field_of_drop count (rest ++ parts) (by simp [bs, multiHead])]
    exact Nat.mod_eq_of_lt (lt_of_le_of_lt hcount hlt)
  · simp [bs, multiHead]
  · simp [bs, multiHead, List.drop_append, hrest]
  · simp only [bs, multiHead, List.length_append, List.length_cons, length_leBytes, hrest]

theorem decode_encode {r : Record} (h : r.Fits settings) :
    decode settings.trackEstimatedTime (r.encode settings.trackEstimatedTime) = r := by
  cases r with
  | store r =>
    have hdecode := Store.decode_encode h []
    rw [List.append_nil] at hdecode
    have hhead : (r.encode settings.trackEstimatedTime).headD 0 = 0x01 := rfl
    simp only [encode, decode, hhead, if_true, hdecode]
  | multiStore parts =>
    obtain ⟨hne, hcount, hfits⟩ := h
    obtain ⟨hhead, hfield, -, hdrop, -⟩ := multiHead_eq 0x02 hcount
      (leBytes 12 0) (by simp) (parts.flatMap (Store.encode settings.trackEstimatedTime))
    have hparts := decodeParts_encode (Store.encode settings.trackEstimatedTime)
      (Store.decode settings.trackEstimatedTime) (Store.length_encode _) parts fun a ha => by
        have hdecode := Store.decode_encode (hfits a ha) []
        rwa [List.append_nil] at hdecode
    simp only [encode, decode, hhead, hfield, hdrop, hparts]
    rfl
  | multiRemove keys =>
    obtain ⟨hne, hcount⟩ := h
    obtain ⟨hhead, hfield, -, hdrop, -⟩ := multiHead_eq 0x03 hcount
      (leBytes 12 0) (by simp) (keys.flatMap Key.encode)
    have hparts := decodeParts_encode Key.encode Key.decode Key.length_encode keys
      fun a _ => by
        have hdecode := Key.decode_encode a []
        rwa [List.append_nil] at hdecode
    simp only [encode, decode, hhead, hfield, hdrop, hparts]
    rfl
  | multiAccess time keys =>
    obtain ⟨-, hcount⟩ := h
    obtain ⟨hhead, hfield, htime, hdrop, -⟩ := multiHead_eq 0x04 hcount
      time.encode (by simp) (keys.flatMap Key.encode)
    have hparts := decodeParts_encode Key.encode Key.decode Key.length_encode keys
      fun a _ => by
        have hdecode := Key.decode_encode a []
        rwa [List.append_nil] at hdecode
    simp only [encode, decode, hhead, hfield, hdrop, hparts, htime,
      EstimatedTimePoint.decode_encode]
    rfl

theorem length_encode (tracked : Bool) (r : Record) :
    (r.encode tracked).length = match r with
      | store _ => Store.sizeOf tracked
      | multiStore parts => 16 + parts.length * Store.sizeOf tracked
      | multiRemove keys => 16 + keys.length * 16
      | multiAccess _ keys => 16 + keys.length * 16 := by
  cases r with
  | store r => exact Store.length_encode tracked r
  | multiStore parts =>
    have h := length_flatMap_const (Store.length_encode tracked) parts
    simp only [encode, multiHead, List.length_append, List.length_cons, length_leBytes, h]
  | multiRemove keys =>
    have h := length_flatMap_const Key.length_encode keys
    simp only [encode, multiHead, List.length_append, List.length_cons, length_leBytes, h]
  | multiAccess time keys =>
    have h := length_flatMap_const Key.length_encode keys
    simp only [encode, multiHead, List.length_append, List.length_cons, length_leBytes, h,
      EstimatedTimePoint.length_encode]

theorem readRecordSize_multiStore (bs : List UInt8) :
    readRecordSize settings (0x02 :: bs) =
      readMultiSize settings true (Store.sizeOf settings.trackEstimatedTime) (0x02 :: bs) := rfl

theorem readRecordSize_multiRemove (bs : List UInt8) :
    readRecordSize settings (0x03 :: bs) = readMultiSize settings true 16 (0x03 :: bs) := rfl

theorem readRecordSize_multiAccess (h : settings.trackEstimatedTime = true) (bs : List UInt8) :
    readRecordSize settings (0x04 :: bs) = readMultiSize settings false 16 (0x04 :: bs) := by
  simp [readRecordSize, h]

/-- A record that fits is complete as soon as all its bytes are there. -/
theorem Fits.size_eq {r : Record} (h : r.Fits settings) :
    readRecordSize settings (r.encode settings.trackEstimatedTime) =
      .exact (r.encode settings.trackEstimatedTime).length := by
  have hlen := length_encode settings.trackEstimatedTime r
  cases r with
  | store r =>
    rw [hlen]
    rfl
  | multiStore parts =>
    obtain ⟨hne, hcount, -⟩ := h
    obtain ⟨-, hfield, -, -, hlong⟩ := multiHead_eq 0x02 hcount
      (leBytes 12 0) (by simp) (parts.flatMap (Store.encode settings.trackEstimatedTime))
    have hpos : parts.length ≠ 0 := by simpa using hne
    rw [hlen, encode, multiHead, List.cons_append, List.cons_append, readRecordSize_multiStore]
    simp only [multiHead, List.cons_append] at hfield hlong
    simp only [readMultiSize, hfield]
    rw [if_neg (by omega), if_neg (by omega)]
  | multiRemove keys =>
    obtain ⟨hne, hcount⟩ := h
    obtain ⟨-, hfield, -, -, hlong⟩ := multiHead_eq 0x03 hcount
      (leBytes 12 0) (by simp) (keys.flatMap Key.encode)
    have hpos : keys.length ≠ 0 := by simpa using hne
    rw [hlen, encode, multiHead, List.cons_append, List.cons_append, readRecordSize_multiRemove]
    simp only [multiHead, List.cons_append] at hfield hlong
    simp only [readMultiSize, hfield]
    rw [if_neg (by omega), if_neg (by omega)]
  | multiAccess time keys =>
    obtain ⟨htracked, hcount⟩ := h
    obtain ⟨-, hfield, -, -, hlong⟩ := multiHead_eq 0x04 hcount
      time.encode (by simp) (keys.flatMap Key.encode)
    rw [hlen, encode, multiHead, List.cons_append, List.cons_append,
      readRecordSize_multiAccess htracked]
    simp only [multiHead, List.cons_append] at hfield hlong
    simp only [readMultiSize, hfield]
    rw [if_neg (by omega), if_neg (by simp; omega)]

end Record

/-! ## Cutting a log into records -/

variable (settings : Settings)

theorem sizeOf_le (tracked : Bool) : Store.sizeOf tracked ≤ 48 := by
  cases tracked <;> simp [Store.sizeOf]

theorem readMultiSize_exact {strict : Bool} {part n : ℕ} {data : List UInt8}
    (h : readMultiSize settings strict part data = .exact n) :
    16 ≤ n ∧ n ≤ 16 + settings.maxBundledRecords * part := by
  simp only [readMultiSize] at h
  split at h
  · cases h
  · split at h
    · cases h
    · next hcount =>
      have hle : field 1 3 data ≤ settings.maxBundledRecords := by omega
      have hmul := Nat.mul_le_mul_right part hle
      cases h
      omega

theorem readMultiSize_append {strict : Bool} {part : ℕ} {data : List UInt8} (more : List UInt8)
    (h : readMultiSize settings strict part data ≠ .unknown) :
    readMultiSize settings strict part (data ++ more) = readMultiSize settings strict part data := by
  by_cases hlen : data.length < 16
  · simp [readMultiSize, hlen] at h
  · have hlen' : ¬(data ++ more).length < 16 := by
      rw [List.length_append]
      omega
    have hfield : field 1 3 (data ++ more) = field 1 3 data := by
      rw [field, field, List.drop_append_of_le_length (by omega),
        List.take_append_of_le_length (by simp; omega)]
    simp only [readMultiSize, hlen, hlen', hfield]

/-- The first byte chooses how the size is read. -/
theorem readRecordSize_cases (data : List UInt8) :
    (data = [] ∧ readRecordSize settings data = .unknown) ∨
    (∀ more, readRecordSize settings (data ++ more) =
      .exact (Store.sizeOf settings.trackEstimatedTime)) ∨
    (∃ strict part, part % 16 = 0 ∧ part ≤ Store.sizeOf settings.trackEstimatedTime ∧ ∀ more,
      readRecordSize settings (data ++ more) = readMultiSize settings strict part (data ++ more)) ∨
    (∀ more, readRecordSize settings (data ++ more) = .invalid) := by
  have hwhole : Store.sizeOf settings.trackEstimatedTime % 16 = 0 := by
    cases settings.trackEstimatedTime <;> rfl
  have hkey : 16 ≤ Store.sizeOf settings.trackEstimatedTime := by
    cases settings.trackEstimatedTime <;> decide
  cases data with
  | nil => exact .inl ⟨rfl, rfl⟩
  | cons type data =>
    right
    simp only [readRecordSize, List.cons_append, List.head?_cons]
    by_cases h₁ : type = 0x01
    · exact .inl fun more => if_pos h₁
    by_cases h₂ : type = 0x02
    · refine .inr (.inl ⟨true, _, hwhole, le_refl _, fun more => ?_⟩)
      rw [if_neg h₁, if_pos h₂]
    by_cases h₃ : type = 0x03
    · refine .inr (.inl ⟨true, 16, rfl, hkey, fun more => ?_⟩)
      rw [if_neg h₁, if_neg h₂, if_pos h₃]
    by_cases h₄ : type = 0x04 ∧ settings.trackEstimatedTime
    · refine .inr (.inl ⟨false, 16, rfl, hkey, fun more => ?_⟩)
      rw [if_neg h₁, if_neg h₂, if_neg h₃, if_pos h₄]
    · refine .inr (.inr fun more => ?_)
      rw [if_neg h₁, if_neg h₂, if_neg h₃, if_neg h₄]

theorem readRecordSize_exact {data : List UInt8} {n : ℕ}
    (h : readRecordSize settings data = .exact n) :
    16 ≤ n ∧ n ≤ 16 + settings.maxBundledRecords * Store.sizeOf settings.trackEstimatedTime ∧
      n % 16 = 0 := by
  have hmax := Nat.mul_le_mul_right (Store.sizeOf settings.trackEstimatedTime)
    settings.maxBundledRecords_pos
  rw [Nat.one_mul] at hmax
  rcases readRecordSize_cases settings data with ⟨-, hsize⟩ | hsize | ⟨strict, part, hpart, hle, hsize⟩ |
    hsize
  · rw [hsize] at h
    cases h
  · specialize hsize []
    rw [List.append_nil, h] at hsize
    cases hsize
    refine ⟨?_, by omega, ?_⟩ <;> cases settings.trackEstimatedTime <;> decide
  · specialize hsize []
    rw [List.append_nil, h] at hsize
    obtain ⟨hge, hle'⟩ := readMultiSize_exact settings hsize.symm
    refine ⟨hge, hle'.trans (Nat.add_le_add_left (Nat.mul_le_mul_left _ hle) _), ?_⟩
    simp only [readMultiSize] at hsize
    split at hsize
    · cases hsize
    · split at hsize
      · cases hsize
      · cases hsize
        rw [Nat.add_mod, Nat.mul_mod, hpart]
        simp
  · specialize hsize []
    rw [List.append_nil, h] at hsize
    cases hsize

theorem readRecordSize_unknown {data : List UInt8}
    (h : readRecordSize settings data = .unknown) : data.length < 16 := by
  rcases readRecordSize_cases settings data with ⟨rfl, -⟩ | hsize | ⟨strict, part, -, -, hsize⟩ | hsize
  · simp
  · specialize hsize []
    rw [List.append_nil, h] at hsize
    cases hsize
  · specialize hsize []
    rw [List.append_nil, h] at hsize
    by_contra hlen
    simp only [readMultiSize, if_neg hlen] at hsize
    split at hsize <;> cases hsize
  · specialize hsize []
    rw [List.append_nil, h] at hsize
    cases hsize

theorem readRecordSize_append {data : List UInt8} (more : List UInt8)
    (h : readRecordSize settings data ≠ .unknown) :
    readRecordSize settings (data ++ more) = readRecordSize settings data := by
  rcases readRecordSize_cases settings data with ⟨-, hsize⟩ | hsize | ⟨strict, part, -, -, hsize⟩ | hsize
  · exact absurd hsize h
  · have hsize' := hsize []
    rw [List.append_nil] at hsize'
    rw [hsize, hsize']
  · have hsize' := hsize []
    rw [List.append_nil] at hsize'
    rw [hsize, hsize', readMultiSize_append settings more (hsize' ▸ h)]
  · have hsize' := hsize []
    rw [List.append_nil] at hsize'
    rw [hsize, hsize']

/-- The reader's sizes are never changed by more data, and fit into a block. -/
theorem readRecordSize_stable_of {limit : ℕ}
    (hlimit : 16 + settings.maxBundledRecords * Store.sizeOf settings.trackEstimatedTime ≤ limit) :
    FrontSize.Stable (readRecordSize settings) limit where
  pos h := by
    obtain ⟨hge, -, -⟩ := readRecordSize_exact settings h
    omega
  le h := (readRecordSize_exact settings h).2.1.trans hlimit
  short h := by
    have hlt := readRecordSize_unknown settings h
    omega
  undecided h h' := by
    have hlt := readRecordSize_unknown settings h
    have hge := (readRecordSize_exact settings h').1
    omega
  exact_append ys h := (readRecordSize_append settings ys (by simp [h])).trans h
  invalid_append ys h := (readRecordSize_append settings ys (by simp [h])).trans h

theorem readRecordSize_stable :
    FrontSize.Stable (readRecordSize settings) settings.readBlockSize := by
  refine readRecordSize_stable_of settings (le_trans ?_ settings.readBlockSize_ge)
  exact Nat.add_le_add_left (Nat.mul_le_mul_left _ (sizeOf_le _)) _

/-- Records are whole cipher blocks. -/
theorem readRecordSize_mod {data : List UInt8} {n : ℕ}
    (h : readRecordSize settings data = .exact n) : n % kBlockSize = 0 :=
  (readRecordSize_exact settings h).2.2

/-- The records of a log. -/
def decodeLog (bytes : List UInt8) : List Record :=
  (records (readRecordSize settings) bytes).map (Record.decode settings.trackEstimatedTime)

def encodeLog (rs : List Record) : List UInt8 :=
  rs.flatMap (Record.encode settings.trackEstimatedTime)

@[simp] theorem encodeLog_nil : encodeLog settings [] = [] := rfl

theorem encodeLog_append (rs ts : List Record) :
    encodeLog settings (rs ++ ts) = encodeLog settings rs ++ encodeLog settings ts :=
  List.flatMap_append

/-- The log of a list of records in front of any bytes gives the records back. -/
theorem decodeLog_encodeLog {rs : List Record} (hrs : ∀ r ∈ rs, r.Fits settings)
    (rest : List UInt8) :
    decodeLog settings (encodeLog settings rs ++ rest) = rs ++ decodeLog settings rest := by
  have hflat : encodeLog settings rs =
      (rs.map (Record.encode settings.trackEstimatedTime)).flatten := by
    rw [encodeLog, List.flatMap_def]
  have hsizes : ∀ r ∈ rs.map (Record.encode settings.trackEstimatedTime),
      readRecordSize settings r = .exact r.length := by
    intro r hr
    obtain ⟨r', hr', rfl⟩ := List.mem_map.mp hr
    exact (hrs r' hr').size_eq
  have hdecode : (rs.map (Record.encode settings.trackEstimatedTime)).map
      (Record.decode settings.trackEstimatedTime) = rs := by
    rw [List.map_map]
    conv_rhs => rw [← List.map_id rs]
    exact List.map_congr_left fun r hr => Record.decode_encode (hrs r hr)
  rw [decodeLog, hflat, ((readRecordSize_stable settings).cut_flatten hsizes rest).1,
    List.map_append, hdecode, decodeLog]

theorem decodeLog_of_fits {rs : List Record} (hrs : ∀ r ∈ rs, r.Fits settings) :
    decodeLog settings (encodeLog settings rs) = rs := by
  have h := decodeLog_encodeLog settings hrs []
  have hnil : decodeLog settings [] = [] := rfl
  rwa [List.append_nil, hnil, List.append_nil] at h

end Bettergram.Storage.Cache
