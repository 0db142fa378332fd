import Bettergram.Foundation.TreeMaps
import Bettergram.Foundation.DataStream

/-! # The addresses of the data centers

An endpoint is known by its address: of two with one address a list keeps the
first. The list from the server takes the place of the stored one when it has
other addresses.
-/

namespace Bettergram.Mtproto
open Foundation

abbrev DcId := Int32

def kDcShift : Int32 := 10000

def bareDcId (shiftedDcId : Int32) : DcId := shiftedDcId % kDcShift

/-- `Instance::Config::kTemporaryMainDc` -/
def kTemporaryMainDc : DcId := 1000

def isTemporaryDcId (shiftedDcId : Int32) : Bool := kTemporaryMainDc ≤ bareDcId shiftedDcId

namespace DcFlag

def f_ipv6 : UInt32 := (1 : UInt32) <<< 0
def f_media_only : UInt32 := (1 : UInt32) <<< 1
def f_tcpo_only : UInt32 := (1 : UInt32) <<< 2
def f_cdn : UInt32 := (1 : UInt32) <<< 3
def f_static : UInt32 := (1 : UInt32) <<< 4
def f_secret : UInt32 := (1 : UInt32) <<< 10

end DcFlag

structure Endpoint where
  id : DcId
  flags : UInt32
  ip : List UInt8
  port : Int32
  secret : List UInt8
deriving DecidableEq, Repr

/-- What an endpoint is looked up by. -/
def Endpoint.address (e : Endpoint) : List UInt8 × Int32 := (e.ip, e.port)

def Endpoint.sameAddress (e e' : Endpoint) : Bool := e.ip = e'.ip ∧ e.port = e'.port

theorem Endpoint.sameAddress_iff {e e' : Endpoint} : e.sameAddress e' ↔ e.address = e'.address := by
  simp [sameAddress, address]

/-- The endpoints of one data center. -/
structure IsEndpoints (dcId : DcId) (endpoints : List Endpoint) : Prop where
  notEmpty : endpoints ≠ []
  ids : ∀ e ∈ endpoints, e.id = dcId
  nodup : (endpoints.map Endpoint.address).Nodup

/-- `std::map<DcId, std::vector<Endpoint>>` -/
structure DcData where
  map : Std.TreeMap DcId (List Endpoint)
  wellFormed : ∀ dcId endpoints, map[dcId]? = some endpoints → IsEndpoints dcId endpoints

namespace DcData

def empty : DcData := ⟨∅, by simp⟩

def endpoints (dcId : DcId) (data : DcData) : List Endpoint := (data.map[dcId]?).getD []

theorem isEndpoints_append {dcId : DcId} {endpoints : List Endpoint} (h : IsEndpoints dcId endpoints)
    {e : Endpoint} (hid : e.id = dcId) (hnew : endpoints.any e.sameAddress = false) :
    IsEndpoints dcId (endpoints ++ [e]) := by
  refine ⟨by simp, fun x hx => ?_, ?_⟩
  · obtain hx | hx := List.mem_append.mp hx
    · exact h.ids x hx
    · exact List.mem_singleton.mp hx ▸ hid
  · rw [List.map_append, List.nodup_append]
    refine ⟨h.nodup, List.nodup_singleton _, ?_⟩
    rintro a ha b hb rfl
    obtain ⟨x, hx, hxa⟩ := List.mem_map.mp ha
    have hsame : e.sameAddress x :=
      Endpoint.sameAddress_iff.mpr ((List.mem_singleton.mp hb).symm.trans hxa.symm)
    exact absurd hsame (List.any_eq_false.mp hnew x hx)

theorem wellFormed_insert (data : DcData) {dcId : DcId} {endpoints : List Endpoint}
    (h : IsEndpoints dcId endpoints) (k : DcId) (l : List Endpoint)
    (hk : (data.map.insert dcId endpoints)[k]? = some l) : IsEndpoints k l := by
  rw [insert_getElem?] at hk
  split_ifs at hk with heq
  · exact heq ▸ Option.some.inj hk ▸ h
  · exact data.wellFormed k l hk

/-- `ApplyOneOption` -/
def applyOneOption (data : DcData) (e : Endpoint) : Bool × DcData :=
  match hfind : data.map[e.id]? with
  | some endpoints =>
    if hsame : endpoints.any e.sameAddress then (false, data)
    else (true, ⟨data.map.insert e.id (endpoints ++ [e]), data.wellFormed_insert
      (isEndpoints_append (data.wellFormed _ _ hfind) rfl (Bool.not_eq_true _ ▸ hsame))⟩)
  | none => (true, ⟨data.map.insert e.id [e], data.wellFormed_insert
      ⟨by simp, by simp, by simp⟩⟩)

def applyAll (data : DcData) (endpoints : List Endpoint) : DcData :=
  endpoints.foldl (fun data e => (data.applyOneOption e).2) data

/-! ## What is different -/

/-- Each endpoint has one with its address on the other side, where there are as many. -/
def equal (m n : List Endpoint) : Bool :=
  m.length = n.length ∧ m.all fun e => n.any e.sameAddress

/-- The loop over two maps. The end of a map counts as the greatest id; `none` is a read behind
the end. -/
def differenceLoop : List (DcId × List Endpoint) → List (DcId × List Endpoint) →
    Option (List DcId)
  | [], [] => some []
  | (aId, _) :: a, [] =>
    if aId < Int32.maxValue then (differenceLoop a []).map (aId :: ·) else none
  | [], (bId, _) :: b =>
    if bId < Int32.maxValue then (differenceLoop [] b).map (bId :: ·) else none
  | (aId, m) :: a, (bId, n) :: b =>
    if aId < bId then (differenceLoop a ((bId, n) :: b)).map (aId :: ·)
    else if bId < aId then (differenceLoop ((aId, m) :: a) b).map (bId :: ·)
    else if equal m n then differenceLoop a b
    else (differenceLoop a b).map (aId :: ·)
termination_by a b => a.length + b.length

def countOptionsDifference (a b : DcData) : Option (List DcId) :=
  differenceLoop a.map.toList b.map.toList

end DcData

/-! ## Lists of options -/

/-- `MTPDdcOption` -/
structure DcOption where
  flags : UInt32
  id : DcId
  ipAddress : List UInt8
  port : Int32
  secret : List UInt8

def DcOption.hasSecret (option : DcOption) : Bool := option.flags &&& DcFlag.f_secret ≠ 0

def DcOption.endpoint (option : DcOption) : Endpoint where
  id := option.id
  flags := option.flags
  ip := option.ipAddress
  port := option.port
  secret := if option.hasSecret then option.secret else []

/-- The keys of the CDN data centers by their fingerprints. -/
abbrev CdnPublicKeys (Key : Type) := Std.TreeMap DcId (Std.TreeMap UInt64 Key)

structure DcOptions (Key : Type) where
  data : DcData := .empty
  cdnPublicKeys : CdnPublicKeys Key := ∅
  immutable : Bool := false

namespace DcOptions

variable {Key : Type}

/-- The ids that are notified as changed, none when nothing is, and the options after that. -/
def processFromList (options : List DcOption) (overwrite : Bool) (s : DcOptions Key) :
    Option (List DcId × DcOptions Key) :=
  if options = [] ∨ s.immutable then some ([], s)
  else
    let data := if overwrite then DcData.empty else s.data
    let data := data.applyAll (options.map DcOption.endpoint)
    (DcData.countOptionsDifference s.data data).map fun difference =>
      if difference ≠ [] then (difference, { s with data }) else ([], s)

def setFromList (options : List DcOption) (s : DcOptions Key) : Option (List DcId × DcOptions Key) :=
  s.processFromList options true

def addFromList (options : List DcOption) (s : DcOptions Key) : Option (List DcId × DcOptions Key) :=
  s.processFromList options false

/-- The endpoints of a data center are applied one by one; was one of them new? -/
def applyList (data : DcData) (endpoints : List Endpoint) : Bool × DcData :=
  endpoints.foldl (fun x e => ((x.2.applyOneOption e).1 || x.1, (x.2.applyOneOption e).2))
    (false, data)

/-- A key that is known stays as it is. -/
def addEntry (dcId : DcId) (keys : CdnPublicKeys Key) (entry : UInt64 × Key) : CdnPublicKeys Key :=
  keys.insert dcId (((keys[dcId]?).getD ∅).insertIfNew entry.1 entry.2)

def addKeys (keys : CdnPublicKeys Key) (other : CdnPublicKeys Key) : CdnPublicKeys Key :=
  other.toList.foldl (fun keys item => item.2.toList.foldl (addEntry item.1) keys) keys

def addItem (x : List DcId × DcData) (item : DcId × List Endpoint) : List DcId × DcData :=
  let (changed, data) := applyList x.2 item.2
  (if changed then x.1 ++ [item.1] else x.1, data)

/-- Options of another object are added; the other one is left empty. -/
def addFromOther (options : DcOptions Key) (s : DcOptions Key) : List DcId × DcOptions Key :=
  if s.immutable ∨ options.data.map.isEmpty then ([], s)
  else
    let x := options.data.map.toList.foldl addItem ([], s.data)
    (x.1, { s with
      data := x.2
      cdnPublicKeys := addKeys s.cdnPublicKeys options.cdnPublicKeys })

def constructAddOne (e : Endpoint) (s : DcOptions Key) : DcOptions Key :=
  { s with data := (s.data.applyOneOption { e with id := bareDcId e.id }).2 }

/-! ## The built in options -/

structure BuiltInDc where
  id : DcId
  ip : String
  port : Int32

def builtInDcs (testMode : Bool) : List BuiltInDc :=
  if testMode then
    [⟨1, "149.154.175.10", 443⟩, ⟨2, "149.154.167.40", 443⟩, ⟨3, "149.154.175.117", 443⟩]
  else
    [⟨1, "149.154.175.50", 443⟩, ⟨2, "149.154.167.51", 443⟩, ⟨3, "149.154.175.100", 443⟩,
      ⟨4, "149.154.167.91", 443⟩, ⟨5, "149.154.171.5", 443⟩]

def builtInDcsIPv6 (testMode : Bool) : List BuiltInDc :=
  if testMode then
    [⟨1, "2001:0b28:f23d:f001:0000:0000:0000:000e", 443⟩,
      ⟨2, "2001:067c:04e8:f002:0000:0000:0000:000e", 443⟩,
      ⟨3, "2001:0b28:f23d:f003:0000:0000:0000:000e", 443⟩]
  else
    [⟨1, "2001:0b28:f23d:f001:0000:0000:0000:000a", 443⟩,
      ⟨2, "2001:067c:04e8:f002:0000:0000:0000:000a", 443⟩,
      ⟨3, "2001:0b28:f23d:f003:0000:0000:0000:000a", 443⟩,
      ⟨4, "2001:067c:04e8:f004:0000:0000:0000:000a", 443⟩,
      ⟨5, "2001:0b28:f23f:f005:0000:0000:0000:000a", 443⟩]

def BuiltInDc.endpoint (flags : UInt32) (bdc : BuiltInDc) : Endpoint where
  id := bdc.id
  flags := flags
  ip := bdc.ip.toList.map fun c => UInt8.ofNat c.toNat
  port := bdc.port
  secret := []

def constructFromBuiltIn (testMode : Bool) (s : DcOptions Key) : DcOptions Key :=
  let bdcs := (builtInDcs testMode).map (BuiltInDc.endpoint DcFlag.f_static)
  let bdcsipv6 := (builtInDcsIPv6 testMode).map
    (BuiltInDc.endpoint (DcFlag.f_static ||| DcFlag.f_ipv6))
  { s with data := (DcData.empty.applyAll bdcs).applyAll bdcsipv6 }

end DcOptions

end Bettergram.Mtproto

/-! ## Options that are written and read

The options are written with all their bytes. The reader takes ips and secrets
up to a bound, and stops at the first one that is longer.
-/

namespace Bettergram.Mtproto
open Foundation DataStream

/-- What is known of RSA keys: they are made of two numbers, and found by a fingerprint. -/
structure RsaKeys (Key : Type) where
  /-- A valid key of the two numbers. -/
  ofNumbers : List UInt8 → List UInt8 → Option Key
  /-- A valid key of a text. -/
  ofText : List UInt8 → Option Key
  getN : Key → List UInt8
  getE : Key → List UInt8
  fingerprint : Key → UInt64

namespace DcOptions

variable {Key : Type}

def kMaxIpSize : Int32 := 45
def kMaxSecretSize : Int32 := 32

/-! ## Writing -/

def writeEndpoint (e : Endpoint) : List UInt8 :=
  writeInt32 e.id ++ writeInt32 e.flags.toInt32 ++ writeInt32 e.port ++
    writeInt32 (Int32.ofNat e.ip.length) ++ e.ip ++
    writeInt32 (Int32.ofNat e.secret.length) ++ e.secret

/-- `Serialize::bytes` -/
def writeBytes (bytes : List UInt8) : List UInt8 :=
  if bytes = [] then writeInt32 (-1) else writeInt32 (Int32.ofNat bytes.length) ++ bytes

/-- The options that are written: those of a temporary data center are not. -/
def writtenOptions (data : DcData) : List Endpoint :=
  (data.map.toList.filter fun item => !isTemporaryDcId item.1).flatMap (·.2)

def publicKeys (keys : CdnPublicKeys Key) : List (DcId × Key) :=
  keys.toList.flatMap fun item => item.2.toList.map fun entry => (item.1, entry.2)

def writeKey (rsa : RsaKeys Key) (key : DcId × Key) : List UInt8 :=
  writeInt32 key.1 ++ writeBytes (rsa.getN key.2) ++ writeBytes (rsa.getE key.2)

def kVersion : Int32 := 1

def write (rsa : RsaKeys Key) (data : DcData) (keys : CdnPublicKeys Key) : List UInt8 :=
  let options := writtenOptions data
  let publicKeys := publicKeys keys
  writeInt32 (-kVersion) ++ writeInt32 (Int32.ofNat options.length) ++
    options.flatMap writeEndpoint ++ writeInt32 (Int32.ofNat publicKeys.length) ++
    publicKeys.flatMap (writeKey rsa)

/-- Options that are overridden are not written. -/
def serialize (rsa : RsaKeys Key) (s : DcOptions Key) : List UInt8 :=
  if s.immutable then write rsa .empty ∅ else write rsa s.data s.cdnPublicKeys

/-! ## Reading -/

/-- Bytes that are read over the first ones of a buffer. -/
def readOver (buffer : List UInt8) (d : DataStream) : List UInt8 × DataStream :=
  let (bytes, d) := d.readRaw buffer.length
  (bytes ++ buffer.drop bytes.length, d)

/-- `none` is a secret that is too long. -/
def readSecret (d : DataStream) : Option (List UInt8 × DataStream) :=
  let (secretSize, d) := d.readInt32
  if secretSize < 0 ∨ kMaxSecretSize < secretSize then none
  else some (readOver (List.replicate secretSize.toInt.toNat 0) d)

/-- One option; `none` is bad data. -/
def readEndpoint (version : Int32) (d : DataStream) : Option (Endpoint × DataStream) :=
  let (id, d) := d.readInt32
  let (flags, d) := d.readInt32
  let (port, d) := d.readInt32
  let (ipSize, d) := d.readInt32
  if ipSize ≤ 0 ∨ kMaxIpSize < ipSize then none
  else
    let (ip, d) := readOver (List.replicate ipSize.toInt.toNat 32) d
    match if 0 < version then readSecret d else some ([], d) with
    | none => none
    | some (secret, d) =>
      if d.ok then some ({ id, flags := flags.toUInt32, ip, port, secret }, d) else none

/-- The options up to the first bad one, and the stream behind the last of them when all are
good. -/
def readEndpoints (version : Int32) : ℕ → DataStream → List Endpoint × Option DataStream
  | 0, d => ([], some d)
  | count + 1, d =>
    (readEndpoint version d).elim ([], none) fun x =>
      ((readEndpoints version count x.2).map (x.1 :: ·) id)

/-- `operator>>` of `ReadBytesVectorWrap` -/
def readBytes (d : DataStream) : List UInt8 × DataStream :=
  let (len, d) := d.readInt32
  if !d.ok ∨ len = -1 then ([], d)
  else if d.rest.length < len.toUInt32.toNat then ([], ⟨[], false⟩)
  else d.readRaw len.toUInt32.toNat

def addKey (rsa : RsaKeys Key) (keys : CdnPublicKeys Key) (key : DcId × Key) : CdnPublicKeys Key :=
  addEntry key.1 keys (rsa.fingerprint key.2, key.2)

/-- The keys up to the first that can't be read; `none` is a key that is not valid. -/
def readKeys (rsa : RsaKeys Key) : ℕ → DataStream → List (DcId × Option Key)
  | 0, _ => []
  | count + 1, d =>
    let (dcId, d) := d.readInt32
    let (n, d) := readBytes d
    let (e, d) := readBytes d
    if d.ok then (dcId, rsa.ofNumbers n e) :: readKeys rsa count d else []

/-- An int that counts up to its bound meets it after that many rounds. -/
def rounds (count : Int32) : ℕ := count.toUInt32.toNat

/-- The CDN config, when there is one. -/
def readCdnConfig (rsa : RsaKeys Key) (d : DataStream) : List (DcId × Option Key) :=
  if d.rest = [] then []
  else
    let (count, d) := d.readInt32
    if d.ok then readKeys rsa (rounds count) d else []

/-- The version and the number of options. -/
def readHeader (serialized : List UInt8) : Int32 × Int32 × DataStream :=
  let (minusVersion, d) := readInt32 ⟨serialized, true⟩
  let version := if minusVersion < 0 then -minusVersion else 0
  if 0 < version then
    let (count, d) := d.readInt32
    (version, count, d)
  else (version, minusVersion, d)

/-- Each option and each valid key is applied as soon as it is read. -/
def constructFromSerialized (rsa : RsaKeys Key) (serialized : List UInt8) (s : DcOptions Key) :
    DcOptions Key :=
  let (version, count, d) := readHeader serialized
  if !d.ok then s
  else
    let (endpoints, d) := readEndpoints version (rounds count) d
    let keys := (d.map (readCdnConfig rsa)).getD []
    { s with
      data := DcData.empty.applyAll endpoints
      cdnPublicKeys := (keys.filterMap fun key => key.2.map fun k => (key.1, k)).foldl (addKey rsa)
        s.cdnPublicKeys }

/-- The keys of the CDN config of the server take the place of all others. -/
def setCDNConfig (rsa : RsaKeys Key) (publicKeys : List (DcId × List UInt8)) (s : DcOptions Key) :
    DcOptions Key :=
  { s with cdnPublicKeys := (publicKeys.filterMap fun key =>
      (rsa.ofText key.2).map fun k => (key.1, k)).foldl (addKey rsa) ∅ }

end DcOptions

end Bettergram.Mtproto
