import Bettergram.Mtproto.DcOptionsReading

/-! # Options and a restart

The options that are built come back as they were when each of them is within
the limits of the reader. A string that is not complete leaves a part of what
it says in place of the options.
-/

namespace Bettergram.Mtproto
open Foundation DataStream

namespace DcOptions

variable {Key : Type} {rsa : RsaKeys Key} {s t : DcOptions Key}

/-! ## Keys by their fingerprints -/

def findKey (keys : CdnPublicKeys Key) (dcId : DcId) (fingerprint : UInt64) : Option Key :=
  (keys[dcId]?).bind (·[fingerprint]?)

theorem findKey_addEntry (keys : CdnPublicKeys Key) (dcId dcId' : DcId)
    (fingerprint fingerprint' : UInt64) (key : Key) :
    findKey (addEntry dcId keys (fingerprint, key)) dcId' fingerprint' =
      (findKey keys dcId' fingerprint').or
        (if dcId = dcId' ∧ fingerprint = fingerprint' then some key else none) := by
  rw [addEntry, findKey, findKey, insert_getElem?]
  by_cases hid : dcId = dcId'
  · subst hid
    rw [if_pos rfl, Option.bind_some, insertIfNew_getElem?]
    cases hkeys : keys[dcId]? with
    | none => simp
    | some m => simp
  · rw [if_neg hid, if_neg fun h => hid h.1, Option.or_none]

theorem findKey_foldl (rsa : RsaKeys Key) (l : List (DcId × Key)) (keys : CdnPublicKeys Key)
    (dcId : DcId) (fingerprint : UInt64) :
    findKey (l.foldl (addKey rsa) keys) dcId fingerprint = (findKey keys dcId fingerprint).or
      ((l.find? fun x => x.1 = dcId ∧ rsa.fingerprint x.2 = fingerprint).map (·.2)) := by
  induction l generalizing keys with
  | nil => simp
  | cons x l ih =>
    rw [List.foldl_cons, ih, addKey, findKey_addEntry, Option.or_assoc, List.find?_cons]
    by_cases hx : x.1 = dcId ∧ rsa.fingerprint x.2 = fingerprint
    · simp [hx]
    · simp [hx]

/-- The keys are found by their own fingerprints. -/
def KeysKnown (rsa : RsaKeys Key) (keys : CdnPublicKeys Key) : Prop :=
  ∀ dcId fingerprint key, findKey keys dcId fingerprint = some key →
    fingerprint = rsa.fingerprint key

theorem KeysKnown.addEntry {keys : CdnPublicKeys Key} (h : KeysKnown rsa keys) (dcId : DcId)
    {fingerprint : UInt64} {key : Key} (hkey : fingerprint = rsa.fingerprint key) :
    KeysKnown rsa (addEntry dcId keys (fingerprint, key)) := by
  intro dcId' fingerprint' key' hfind
  rw [findKey_addEntry, Option.or_eq_some_iff] at hfind
  obtain hfind | ⟨-, hfind⟩ := hfind
  · exact h dcId' fingerprint' key' hfind
  · split_ifs at hfind with heq
    exact heq.2 ▸ Option.some.inj hfind ▸ hkey

theorem KeysKnown.empty : KeysKnown rsa ∅ := by
  intro dcId fingerprint key hfind
  simp [findKey] at hfind

theorem KeysKnown.foldl {keys : CdnPublicKeys Key} (h : KeysKnown rsa keys)
    (l : List (DcId × Key)) : KeysKnown rsa (l.foldl (addKey rsa) keys) := by
  induction l generalizing keys with
  | nil => exact h
  | cons x l ih => exact ih (h.addEntry x.1 rfl)

theorem KeysKnown.addEntries {keys : CdnPublicKeys Key} (h : KeysKnown rsa keys) (dcId : DcId)
    {entries : List (UInt64 × Key)}
    (hentries : ∀ entry ∈ entries, entry.1 = rsa.fingerprint entry.2) :
    KeysKnown rsa (entries.foldl (DcOptions.addEntry dcId) keys) := by
  induction entries generalizing keys with
  | nil => exact h
  | cons entry entries ih =>
    exact ih (h.addEntry dcId (hentries entry (by simp))) fun x hx => hentries x (by simp [hx])

theorem KeysKnown.addKeys {keys other : CdnPublicKeys Key} (h : KeysKnown rsa keys)
    (hother : KeysKnown rsa other) : KeysKnown rsa (DcOptions.addKeys keys other) := by
  have hentries : ∀ item ∈ other.toList, ∀ entry ∈ item.2.toList,
      entry.1 = rsa.fingerprint entry.2 := by
    intro item hitem entry hentry
    refine hother item.1 entry.1 entry.2 ?_
    rw [findKey, Std.TreeMap.mem_toList_iff_getElem?_eq_some.mp hitem, Option.bind_some]
    exact Std.TreeMap.mem_toList_iff_getElem?_eq_some.mp hentry
  rw [DcOptions.addKeys]
  generalize other.toList = items at hentries
  induction items generalizing keys with
  | nil => exact h
  | cons item items ih =>
    refine ih (h.addEntries item.1 (hentries item (by simp))) fun x hx => hentries x (by simp [hx])

/-! ## What is built -/

/-- Options that the functions of the class make from nothing. -/
inductive Built (rsa : RsaKeys Key) : DcOptions Key → Prop
  | start : Built rsa {}
  | constructFromBuiltIn {s : DcOptions Key} (h : Built rsa s) (testMode : Bool) :
      Built rsa (s.constructFromBuiltIn testMode)
  | constructAddOne {s : DcOptions Key} (h : Built rsa s) (e : Endpoint) :
      Built rsa (s.constructAddOne e)
  | constructFromSerialized {s : DcOptions Key} (h : Built rsa s) (serialized : List UInt8) :
      Built rsa (constructFromSerialized rsa serialized s)
  | setCDNConfig {s : DcOptions Key} (h : Built rsa s) (publicKeys : List (DcId × List UInt8)) :
      Built rsa (setCDNConfig rsa publicKeys s)
  | processFromList {s t : DcOptions Key} (h : Built rsa s) (options : List DcOption)
      (overwrite : Bool) (ids : List DcId)
      (heq : s.processFromList options overwrite = some (ids, t)) : Built rsa t
  | addFromOther {s other : DcOptions Key} (h : Built rsa s) (hother : Built rsa other) :
      Built rsa (DcOptions.addFromOther other s).2

theorem Built.keysKnown (h : Built rsa s) : KeysKnown rsa s.cdnPublicKeys ∧ s.immutable = false := by
  induction h with
  | start => exact ⟨.empty, rfl⟩
  | constructFromBuiltIn _ _ ih => exact ih
  | constructAddOne _ _ ih => exact ih
  | constructFromSerialized _ serialized ih =>
    rw [DcOptions.constructFromSerialized]
    dsimp only
    split_ifs
    · exact ih
    · exact ⟨ih.1.foldl _, ih.2⟩
  | setCDNConfig _ publicKeys ih => exact ⟨KeysKnown.empty.foldl _, ih.2⟩
  | @processFromList s t _ options overwrite ids heq ih =>
    rw [DcOptions.processFromList] at heq
    by_cases hnone : options = [] ∨ s.immutable
    · rw [if_pos hnone] at heq
      obtain ⟨-, rfl⟩ := Prod.mk.inj (Option.some.inj heq)
      exact ih
    · rw [if_neg hnone] at heq
      obtain ⟨difference, -, hpair⟩ := Option.map_eq_some_iff.mp heq
      split_ifs at hpair
      all_goals
        obtain ⟨-, rfl⟩ := Prod.mk.inj hpair
        exact ih
  | @addFromOther s other _ _ ih ih' =>
    rw [DcOptions.addFromOther]
    split_ifs
    · exact ih
    · exact ⟨ih.1.addKeys ih'.1, ih.2⟩

/-! ## What is written is complete -/

theorem length_le_flatMap {α : Type} (f : α → List UInt8) {l : List α}
    (hpos : ∀ x ∈ l, 1 ≤ (f x).length) : l.length ≤ (l.flatMap f).length := by
  induction l with
  | nil => simp
  | cons x l ih =>
    have hx := hpos x (by simp)
    have hl := ih fun y hy => hpos y (by simp [hy])
    rw [List.length_cons, List.flatMap_cons, List.length_append]
    omega

theorem length_le_of_mem {α : Type} (f : α → List UInt8) {l : List α} {x : α} (hx : x ∈ l) :
    (f x).length ≤ (l.flatMap f).length := by
  obtain ⟨before, after, rfl⟩ := List.append_of_mem hx
  simp only [List.flatMap_append, List.flatMap_cons, List.length_append]
  omega

theorem isBytes_writeBytes {bytes : List UInt8} (hlength : bytes.length < 2 ^ 32 - 1) :
    IsBytes bytes (writeBytes bytes) := by
  rw [writeBytes]
  split_ifs with hnil
  · exact hnil ▸ .null
  · exact .sized bytes hlength

theorem length_le_writeBytes (bytes : List UInt8) : bytes.length ≤ (writeBytes bytes).length := by
  rw [writeBytes]
  split_ifs with hnil
  · simp [hnil]
  · simp

/-- A key that is made of its own numbers again is read as it was written. -/
theorem isKey_writeKey {key : DcId × Key} (hlength : (writeKey rsa key).length < 2 ^ 31)
    (hkey : rsa.ofNumbers (rsa.getN key.2) (rsa.getE key.2) = some key.2) :
    IsKey rsa key (writeKey rsa key) := by
  rw [writeKey, List.append_assoc] at hlength ⊢
  simp only [List.length_append] at hlength
  have hn := length_le_writeBytes (rsa.getN key.2)
  have he := length_le_writeBytes (rsa.getE key.2)
  exact .intro (isBytes_writeBytes (by omega)) (isBytes_writeBytes (by omega)) hkey

/-- A byte array holds less than two gigabytes. -/
theorem complete_write (hkeys : ∀ key, rsa.ofNumbers (rsa.getN key) (rsa.getE key) = some key)
    {data : DcData} {keys : CdnPublicKeys Key} (hsize : (write rsa data keys).length < 2 ^ 31)
    (hlimits : ∀ e ∈ writtenOptions data, Limits e) :
    Complete rsa (writtenOptions data) (publicKeys keys) (write rsa data keys) := by
  have hoptions := length_le_flatMap writeEndpoint (l := writtenOptions data)
    fun e _ => by simp [writeEndpoint]; omega
  have hcount := length_le_flatMap (writeKey rsa) (l := publicKeys keys)
    fun e _ => by simp [writeKey]; omega
  rw [write] at hsize ⊢
  simp only [List.length_append] at hsize
  have hversion : - -kVersion = kVersion := by decide
  have hhead : IsHead kVersion (Int32.ofNat (writtenOptions data).length)
      (writeInt32 (-kVersion) ++ writeInt32 (Int32.ofNat (writtenOptions data).length)) :=
    hversion ▸ .new (-kVersion) _ (by decide) (by decide)
  have hforall : List.Forall₂ (IsKey rsa) (publicKeys keys)
      ((publicKeys keys).map (writeKey rsa)) := by
    rw [List.forall₂_map_right_iff, List.forall₂_same]
    intro key hmem
    have hlength := length_le_of_mem (writeKey rsa) hmem
    exact isKey_writeKey (by omega) (hkeys key.2)
  have hcomplete := @Complete.intro _ rsa _ _ kVersion _ _ _ hhead
    (rounds_ofNat (by omega)) hlimits (fun e _ hold => absurd (by decide) hold)
    (.some (publicKeys keys) _ _ [] (rounds_ofNat (by omega)) hforall)
  have hwritten : (writtenOptions data).flatMap (writtenAs kVersion) =
      (writtenOptions data).flatMap writeEndpoint :=
    List.flatMap_congr fun e _ => writtenAs_kVersion e
  rw [hwritten, List.append_nil, ← List.flatMap_def] at hcomplete
  simpa only [List.append_assoc] using hcomplete

/-! ## What comes back -/

theorem filter_flatMap_of_mem {l : List (DcId × List Endpoint)} {dcId : DcId} {m : List Endpoint}
    (hnodup : (l.map (·.1)).Nodup) (hids : ∀ x ∈ l, ∀ e ∈ x.2, e.id = x.1) (hmem : (dcId, m) ∈ l) :
    (l.flatMap (·.2)).filter (·.id = dcId) = m := by
  have hother : ∀ l' : List (DcId × List Endpoint), (∀ x ∈ l', x.1 ≠ dcId) → l' ⊆ l →
      (l'.flatMap (·.2)).filter (·.id = dcId) = [] := by
    intro l' hne hsub
    rw [List.filter_eq_nil_iff]
    intro e he heq
    obtain ⟨x, hx, hex⟩ := List.mem_flatMap.mp he
    exact hne x hx ((hids x (hsub hx) e hex).symm.trans (by simpa using heq))
  obtain ⟨before, after, rfl⟩ := List.append_of_mem hmem
  rw [List.map_append, List.map_cons, List.nodup_append] at hnodup
  obtain ⟨-, hafter, hapart⟩ := hnodup
  have hself : m.filter (·.id = dcId) = m := by
    rw [List.filter_eq_self]
    exact fun e he => by simpa using hids (dcId, m) hmem e he
  rw [List.flatMap_append, List.flatMap_cons, List.filter_append, List.filter_append, hself,
    hother before ?_ (by simp), hother after ?_ (by simp), List.nil_append, List.append_nil]
  · intro x hx heq
    have hmap : x.1 ∈ after.map (·.1) := List.mem_map_of_mem hx
    exact (List.nodup_cons.mp hafter).1 (heq ▸ hmap)
  · intro x hx heq
    exact hapart x.1 (List.mem_map_of_mem hx) dcId (by simp) heq

theorem eraseDupsBy_of_nodup {l : List Endpoint} (h : (l.map Endpoint.address).Nodup) :
    l.eraseDupsBy Endpoint.sameAddress = l := by
  induction l with
  | nil => rfl
  | cons e l ih =>
    rw [List.map_cons, List.nodup_cons] at h
    have hfilter : l.filter (fun x => x.sameAddress e = false) = l := by
      rw [List.filter_eq_self]
      intro x hx
      rw [decide_eq_true_eq, ← Bool.not_eq_true, Endpoint.sameAddress_iff]
      exact fun heq => h.1 (heq ▸ List.mem_map_of_mem hx)
    rw [List.eraseDupsBy_cons, hfilter, ih h.2]

/-- The options of a data center that is not temporary are all written. -/
theorem filter_writtenOptions (data : DcData) {dcId : DcId} (hdc : isTemporaryDcId dcId = false) :
    (writtenOptions data).filter (·.id = dcId) = data.endpoints dcId := by
  have hids : ∀ x ∈ data.map.toList, ∀ e ∈ x.2, e.id = x.1 := fun x hx =>
    (data.wellFormed x.1 x.2 (DcData.mem_toList.mp hx)).ids
  have hnodup : (data.map.toList.map (·.1)).Nodup := by
    rw [Std.TreeMap.map_fst_toList_eq_keys]
    exact Std.TreeMap.nodup_keys
  cases hfind : data.map[dcId]? with
  | none =>
    rw [DcData.endpoints_of_none hfind, List.filter_eq_nil_iff]
    intro e he heq
    obtain ⟨x, hx, hex⟩ := List.mem_flatMap.mp he
    have hx := (List.mem_filter.mp hx).1
    have hid : x.1 = dcId := (hids x hx e hex).symm.trans (by simpa using heq)
    have hsome := DcData.mem_toList.mp hx
    rw [hid, hfind] at hsome
    simp at hsome
  | some m =>
    rw [DcData.endpoints_of_some hfind]
    refine filter_flatMap_of_mem ((hnodup.sublist ?_)) (fun x hx => ?_) ?_
    · exact List.Sublist.map _ List.filter_sublist
    · exact hids x (List.mem_filter.mp hx).1
    · exact List.mem_filter.mpr ⟨DcData.mem_toList.mpr hfind, by simp [hdc]⟩

theorem mem_publicKeys {keys : CdnPublicKeys Key} {x : DcId × Key} :
    x ∈ publicKeys keys ↔ ∃ fingerprint, findKey keys x.1 fingerprint = some x.2 := by
  rw [publicKeys, List.mem_flatMap]
  constructor
  · rintro ⟨item, hitem, hx⟩
    obtain ⟨entry, hentry, rfl⟩ := List.mem_map.mp hx
    refine ⟨entry.1, ?_⟩
    rw [findKey, Std.TreeMap.mem_toList_iff_getElem?_eq_some.mp hitem, Option.bind_some]
    exact Std.TreeMap.mem_toList_iff_getElem?_eq_some.mp hentry
  · rintro ⟨fingerprint, hfind⟩
    obtain ⟨m, hm, hentry⟩ := Option.bind_eq_some_iff.mp hfind
    exact ⟨(x.1, m), Std.TreeMap.mem_toList_iff_getElem?_eq_some.mpr hm, List.mem_map.mpr
      ⟨(fingerprint, x.2), Std.TreeMap.mem_toList_iff_getElem?_eq_some.mpr hentry, rfl⟩⟩

/-- The keys that are written make the same keys again. -/
theorem findKey_publicKeys {keys : CdnPublicKeys Key} (hknown : KeysKnown rsa keys) (dcId : DcId)
    (fingerprint : UInt64) :
    findKey ((publicKeys keys).foldl (addKey rsa) ∅) dcId fingerprint =
      findKey keys dcId fingerprint := by
  have hempty : findKey (∅ : CdnPublicKeys Key) dcId fingerprint = none := by simp [findKey]
  rw [findKey_foldl, hempty, Option.none_or]
  have hof : ∀ x ∈ publicKeys keys, x.1 = dcId → rsa.fingerprint x.2 = fingerprint →
      findKey keys dcId fingerprint = some x.2 := by
    rintro x hx rfl rfl
    obtain ⟨fingerprint', hfind⟩ := mem_publicKeys.mp hx
    exact hknown x.1 fingerprint' x.2 hfind ▸ hfind
  cases hfound : (publicKeys keys).find? fun x =>
      x.1 = dcId ∧ rsa.fingerprint x.2 = fingerprint with
  | some x =>
    have hx := List.find?_some hfound
    rw [decide_eq_true_eq] at hx
    exact (hof x (List.mem_of_find?_eq_some hfound) hx.1 hx.2).symm
  | none =>
    rw [Option.map_none, eq_comm, Option.eq_none_iff_forall_not_mem]
    intro key hkey
    have hnone := List.find?_eq_none.mp hfound (dcId, key) (mem_publicKeys.mpr ⟨fingerprint, hkey⟩)
    exact hnone (by simp [hknown dcId fingerprint key hkey])

/-! ## A restart -/

/-- The options and the keys are the same. -/
structure SameOptions (s t : DcOptions Key) : Prop where
  endpoints : ∀ dcId, t.data.endpoints dcId = s.data.endpoints dcId
  keys : ∀ dcId fingerprint,
    findKey t.cdnPublicKeys dcId fingerprint = findKey s.cdnPublicKeys dcId fingerprint

/-- Options without keys are replaced by what was written of others. -/
def Survives (rsa : RsaKeys Key) (s : DcOptions Key) : Prop :=
  ∀ s₀ : DcOptions Key, s₀.cdnPublicKeys = ∅ →
    (∀ dcId, isTemporaryDcId dcId = false →
      (constructFromSerialized rsa (serialize rsa s) s₀).data.endpoints dcId =
        s.data.endpoints dcId) ∧
    ∀ dcId fingerprint,
      findKey (constructFromSerialized rsa (serialize rsa s) s₀).cdnPublicKeys dcId fingerprint =
        findKey s.cdnPublicKeys dcId fingerprint

/-- A string is loaded as a whole, or the options stay. -/
def LoadsOrKeeps (rsa : RsaKeys Key) (serialized : List UInt8) (s : DcOptions Key) : Prop :=
  (∃ options keys, Complete rsa options keys serialized ∧
    constructFromSerialized rsa serialized s = loaded rsa options keys s) ∨
  SameOptions s (constructFromSerialized rsa serialized s)

/-- The options and keys in front of the first bad one only repeat what is stored. -/
def Repeats (rsa : RsaKeys Key) (serialized : List UInt8) (s : DcOptions Key) : Prop :=
  let (version, count, d) := readHeader serialized
  let (endpoints, d) := readEndpoints version (rounds count) d
  (∀ dcId, (endpoints.filter (·.id = dcId)).eraseDupsBy Endpoint.sameAddress =
    s.data.endpoints dcId) ∧
  ∀ key ∈ (d.map (readCdnConfig rsa)).getD [], ∀ k ∈ key.2,
    findKey s.cdnPublicKeys key.1 (rsa.fingerprint k) ≠ none

theorem mem_of_mem_applyAll {es : List Endpoint} {dcId : DcId} {e : Endpoint}
    (h : e ∈ (DcData.empty.applyAll es).endpoints dcId) : e ∈ es := by
  have hfold : ∀ es endpoints : List Endpoint, e ∈ es.foldl DcData.addNew endpoints →
      e ∈ es ∨ e ∈ endpoints := by
    intro es
    induction es with
    | nil => exact fun _ => .inr
    | cons x es ih =>
      intro endpoints hmem
      obtain hmem | hmem := ih _ hmem
      · exact .inl (by simp [hmem])
      · rw [DcData.addNew] at hmem
        split_ifs at hmem
        · exact .inr hmem
        · obtain hmem | hmem := List.mem_append.mp hmem
          · exact .inr hmem
          · exact .inl (by simp [List.mem_singleton.mp hmem])
  rw [DcData.applyAll_endpoints, DcData.endpoints_of_none (by simp [DcData.empty])] at h
  exact (List.mem_filter.mp ((hfold _ _ h).resolve_right (by simp))).1

/-- Whatever is loaded is within the limits. -/
theorem constructFromSerialized_limits (serialized : List UInt8) {e : Endpoint} {dcId : DcId}
    (he : e ∈ (constructFromSerialized rsa serialized {}).data.endpoints dcId) : Limits e := by
  rw [constructFromSerialized] at he
  dsimp only at he
  split_ifs at he
  · rw [DcData.endpoints_of_none (by simp [DcData.empty])] at he
    simp at he
  · exact readEndpoints_limits _ _ _ e (mem_of_mem_applyAll he)

theorem mem_writtenOptions {data : DcData} {dcId : DcId} {e : Endpoint}
    (hdc : isTemporaryDcId dcId = false) (he : e ∈ data.endpoints dcId) :
    e ∈ writtenOptions data :=
  (List.mem_filter.mp (filter_writtenOptions data hdc ▸ he)).1

theorem limits_of_writtenOptions {data : DcData}
    (h : ∀ dcId, isTemporaryDcId dcId = false → ∀ e ∈ data.endpoints dcId, Limits e) :
    ∀ e ∈ writtenOptions data, Limits e := by
  intro e he
  obtain ⟨x, hx, hex⟩ := List.mem_flatMap.mp he
  obtain ⟨hx, hdc⟩ := List.mem_filter.mp hx
  refine h x.1 (by simpa using hdc) e ?_
  rw [DcData.endpoints_of_some (DcData.mem_toList.mp hx)]
  exact hex

theorem survives_iff (hkeys : ∀ key, rsa.ofNumbers (rsa.getN key) (rsa.getE key) = some key)
    (h : Built rsa s) (hsize : (serialize rsa s).length < 2 ^ 31) :
    Survives rsa s ↔
      ∀ dcId, isTemporaryDcId dcId = false → ∀ e ∈ s.data.endpoints dcId, Limits e := by
  obtain ⟨hknown, hmutable⟩ := h.keysKnown
  have hwrite : serialize rsa s = write rsa s.data s.cdnPublicKeys := by
    rw [serialize, hmutable]
    rfl
  constructor
  · intro hsurvives dcId hdc e he
    have hsame := (hsurvives {} rfl).1 dcId hdc
    exact constructFromSerialized_limits (serialize rsa s) (hsame.symm ▸ he)
  · intro hlimits s₀ hnone
    have hcomplete := complete_write hkeys (hwrite ▸ hsize) (limits_of_writtenOptions hlimits)
    rw [hwrite, constructFromSerialized_complete hcomplete, loaded, hnone]
    refine ⟨fun dcId hdc => ?_, findKey_publicKeys hknown⟩
    rw [DcData.applyAll_empty_endpoints, filter_writtenOptions _ hdc,
      eraseDupsBy_of_nodup (s.data.endpoints_nodup dcId)]

/-- Keys that are known are not changed by what is read. -/
theorem findKey_foldl_eq_iff {keys : CdnPublicKeys Key} {l : List (DcId × Key)} :
    (∀ dcId fingerprint, findKey (l.foldl (addKey rsa) keys) dcId fingerprint =
      findKey keys dcId fingerprint) ↔
      ∀ x ∈ l, findKey keys x.1 (rsa.fingerprint x.2) ≠ none := by
  simp only [findKey_foldl]
  constructor
  · intro h x hx hnone
    have hsame := h x.1 (rsa.fingerprint x.2)
    rw [hnone, Option.none_or, Option.map_eq_none_iff, List.find?_eq_none] at hsame
    exact hsame x hx (by simp)
  · intro h dcId fingerprint
    cases hfind : findKey keys dcId fingerprint with
    | some key => rfl
    | none =>
      rw [Option.none_or, Option.map_eq_none_iff, List.find?_eq_none]
      intro x hx heq
      rw [decide_eq_true_eq] at heq
      exact h x hx (by rw [heq.1, heq.2, hfind])

theorem sameOptions_iff {serialized : List UInt8} :
    SameOptions s (constructFromSerialized rsa serialized s) ↔
      (readHeader serialized).2.2.ok = false ∨ Repeats rsa serialized s := by
  rw [constructFromSerialized, Repeats]
  generalize readHeader serialized = header
  obtain ⟨version, count, d⟩ := header
  dsimp only
  generalize readEndpoints version (rounds count) d = read
  obtain ⟨endpoints, d'⟩ := read
  dsimp only
  cases hok : d.ok with
  | false =>
    rw [if_pos (by simp)]
    exact ⟨fun _ => .inl rfl, fun _ => ⟨fun _ => rfl, fun _ _ => rfl⟩⟩
  | true =>
    rw [if_neg (by simp), or_iff_right (by simp)]
    have hmem : ∀ keys : List (DcId × Option Key),
        (∀ x ∈ keys.filterMap (fun key => key.2.map fun k => (key.1, k)),
          findKey s.cdnPublicKeys x.1 (rsa.fingerprint x.2) ≠ none) ↔
        ∀ key ∈ keys, ∀ k ∈ key.2, findKey s.cdnPublicKeys key.1 (rsa.fingerprint k) ≠ none := by
      intro keys
      constructor
      · intro h key hkey k hk
        refine h (key.1, k) (List.mem_filterMap.mpr ⟨key, hkey, ?_⟩)
        rw [Option.mem_def.mp hk, Option.map_some]
      · intro h x hx
        obtain ⟨key, hkey, hx⟩ := List.mem_filterMap.mp hx
        obtain ⟨k, hk, rfl⟩ := Option.map_eq_some_iff.mp hx
        exact h key hkey k hk
    rw [← hmem, ← findKey_foldl_eq_iff]
    simp only [← DcData.applyAll_empty_endpoints]
    exact ⟨fun h => ⟨h.endpoints, h.keys⟩, fun h => ⟨h.1, h.2⟩⟩

/-- Options come back exactly when they are within the limits of the reader; a string is loaded or
leaves the options exactly when it is complete, has no header, or only repeats what is stored. -/
theorem serialized_survives (rsa : RsaKeys Key)
    (hkeys : ∀ key, rsa.ofNumbers (rsa.getN key) (rsa.getE key) = some key) (s : DcOptions Key)
    (hbuilt : Built rsa s) (hsize : (serialize rsa s).length < 2 ^ 31) (serialized : List UInt8)
    (s₀ : DcOptions Key) :
    (Survives rsa s ↔
      ∀ dcId, isTemporaryDcId dcId = false → ∀ e ∈ s.data.endpoints dcId, Limits e) ∧
    (LoadsOrKeeps rsa serialized s₀ ↔
      (∃ options keys, Complete rsa options keys serialized) ∨
      (readHeader serialized).2.2.ok = false ∨ Repeats rsa serialized s₀) := by
  refine ⟨survives_iff hkeys hbuilt hsize, ?_⟩
  rw [LoadsOrKeeps, sameOptions_iff]
  refine or_congr_left (exists_congr fun options => exists_congr fun keys => ?_)
  exact ⟨fun h => h.1, fun h => ⟨h, constructFromSerialized_complete h s₀⟩⟩

/-- Keys of which there is one. -/
def oneKey : RsaKeys Unit where
  ofNumbers _ _ := some ()
  ofText _ := some ()
  getN _ := [3]
  getE _ := [5]
  fingerprint _ := 7

def longSecret : DcOption where
  flags := DcFlag.f_secret
  id := 2
  ipAddress := [49]
  port := 443
  secret := List.replicate 33 1

/-- The built in options, and their string without its last byte. -/
theorem serialized_survives_builtIn :
    let s : DcOptions Unit := constructFromBuiltIn true {}
    (Survives oneKey s ↔
      ∀ dcId, isTemporaryDcId dcId = false → ∀ e ∈ s.data.endpoints dcId, Limits e) ∧
    (LoadsOrKeeps oneKey (serialize oneKey s).dropLast s ↔
      (∃ options keys, Complete oneKey options keys (serialize oneKey s).dropLast) ∨
      (readHeader (serialize oneKey s).dropLast).2.2.ok = false ∨
      Repeats oneKey (serialize oneKey s).dropLast s) := by
  intro s
  exact serialized_survives oneKey (fun _ => rfl) s (Built.start.constructFromBuiltIn true)
    (by decide +kernel) (serialize oneKey s).dropLast s

theorem Complete.reads {options : List Endpoint} {keys : List (DcId × Key)}
    {serialized : List UInt8} (h : Complete rsa options keys serialized) :
    (readEndpoints (readHeader serialized).1 (rounds (readHeader serialized).2.1)
      (readHeader serialized).2.2).1.length = rounds (readHeader serialized).2.1 := by
  cases h with
  | intro version count head tail hhead hcount hlimits hsecret htail =>
    rw [readHeader_written hhead]
    dsimp only
    rw [hcount, readEndpoints_written hlimits hsecret]

/-- A secret of 33 bytes is written and not read, and a string that is cut leaves no options. -/
theorem serialized_does_not_survive :
    ¬ ((∀ s : DcOptions Unit, Built oneKey s → (serialize oneKey s).length < 2 ^ 31 →
        Survives oneKey s) ∧
      ∀ (serialized : List UInt8) (s : DcOptions Unit), LoadsOrKeeps oneKey serialized s) ∧
    ¬ LoadsOrKeeps oneKey (writeInt32 (-kVersion) ++ writeInt32 1)
      (constructFromBuiltIn false {}) := by
  have hcut : ¬ LoadsOrKeeps oneKey (writeInt32 (-kVersion) ++ writeInt32 1)
      (constructFromBuiltIn false {}) := by
    rintro (⟨options, keys, h, -⟩ | hsame)
    · exact absurd h.reads (by decide)
    · exact absurd (hsame.endpoints 1) (by decide +kernel)
  refine ⟨fun hall => ?_, hcut⟩
  have hset : (({} : DcOptions Unit).setFromList [longSecret]).map (·.1) = some [2] := by
    decide +kernel
  obtain ⟨x, hx, -⟩ := Option.map_eq_some_iff.mp hset
  have hbuilt : Built oneKey x.2 := Built.start.processFromList [longSecret] true x.1 hx
  have hkept : ((({} : DcOptions Unit).setFromList [longSecret]).map fun x =>
      (decide ((serialize oneKey x.2).length < 2 ^ 31), x.2.data.endpoints 2,
        (constructFromSerialized oneKey (serialize oneKey x.2) {}).data.endpoints 2)) =
      some (true, [longSecret.endpoint], []) := by decide +kernel
  rw [hx, Option.map_some, Option.some.injEq, Prod.mk.injEq, Prod.mk.injEq] at hkept
  have hsame := (hall.1 x.2 hbuilt (of_decide_eq_true hkept.1) {} rfl).1 2 (by decide)
  rw [hkept.2.1, hkept.2.2] at hsame
  simp at hsame

end DcOptions

end Bettergram.Mtproto
