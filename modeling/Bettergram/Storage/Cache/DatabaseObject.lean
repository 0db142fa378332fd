import Bettergram.Storage.Cache.BinlogReader
import Bettergram.Storage.Cache.Memory

/-! # The cache database

The calls of `DatabaseObject` as the source computes them. The log is a
`PlainFile`, the files of the values are looked up by path. What a call cannot
decide is in its `Env`: clock readings, random places and the outcome of every
file operation. Timers are not kept: what they would call may happen any time.
-/

namespace Bettergram.Storage.Cache
open Foundation

inductive ErrorType where
  | none
  | io
  | wrongKey
  | lockFailed
  deriving DecidableEq

structure Error where
  type : ErrorType := .none
  path : List Char := []
  deriving DecidableEq

def Error.noError : Error := {}

/-! ## Paths -/

def hexDigit (digit : UInt8) : Char :=
  if digit < 0x0A then Char.ofNat ('0'.toNat + digit.toNat)
  else Char.ofNat ('A'.toNat + (digit.toNat - 0x0A))

/-- The low half of a byte comes first. -/
def hexByte (value : UInt8) : List Char := [hexDigit (value &&& 0x0F), hexDigit (value >>> 4)]

/-- `PlaceFromId`: the first byte names a folder. -/
def placeFromId (place : PlaceId) : List Char :=
  match place.toList with
  | [] => []
  | first :: rest => hexByte first ++ '/' :: rest.flatMap hexByte

def binlogFilename : List Char := ['b', 'i', 'n', 'l', 'o', 'g']

/-! ## The environment of a call -/

/-- How `File::open` of a value for writing ends; a failure leaves any content behind. -/
inductive DataOpen where
  | success
  | failed (left : Option (List UInt8))
  | lockFailed (left : Option (List UInt8))

structure Env where
  storeClock : Int32
  accessClock : Int32
  places : List PlaceId
  padding : Block
  storeLimit : Option ℕ
  removeLimits : Fin 2 → Option ℕ
  accessLimits : Fin 2 → Option ℕ
  dataOpen : DataOpen
  dataLimits : Fin 2 → Option ℕ
  fileRemoved : Bool

/-- Every file operation succeeds. -/
def Env.granted (clock : Int32) (places : List PlaceId) : Env where
  storeClock := clock
  accessClock := clock
  places := places
  padding := Vector.replicate 16 0
  storeLimit := none
  removeLimits := fun _ => none
  accessLimits := fun _ => none
  dataOpen := .success
  dataLimits := fun _ => none
  fileRemoved := true

/-- `disk` holds the decrypted files of the values; a file that cannot be read counts as empty.
`ready` is the compacted log that is to replace the log. -/
structure DatabaseObject where
  path : List Char := []
  memory : Memory := {}
  removing : List Key := []
  accessed : List Key := []
  stale : List Key := []
  binlog : PlainFile
  ready : Option (List UInt8) := none
  disk : List Char → Option (List UInt8) := fun _ => none

namespace DatabaseObject

def binlogPath (db : DatabaseObject) : List Char := db.path ++ binlogFilename
def placePath (db : DatabaseObject) (place : PlaceId) : List Char := db.path ++ placeFromId place
def isFreePlace (db : DatabaseObject) (place : PlaceId) : Bool := (db.disk (db.placePath place)).isNone
def ioError (path : List Char) : Error := { type := .io, path }

def setFile (path : List Char) (content : Option (List UInt8)) (db : DatabaseObject) :
    DatabaseObject :=
  { db with disk := Function.update db.disk path content }

/-- A key that is put again is neither to be removed nor stale. -/
def forget (key : Key) (db : DatabaseObject) : DatabaseObject :=
  { db with removing := db.removing.filter (· ≠ key), stale := db.stale.filter (· ≠ key) }

/-- Two writes to the log in a row; an empty list is not written. -/
def writeBinlog (limits : Fin 2 → Option ℕ) (header list : List UInt8) (binlog : PlainFile) :
    Bool × PlainFile :=
  match binlog.writeOpen (limits 0) header with
  | (false, binlog) => (false, binlog)
  | (true, binlog) => if list = [] then (true, binlog) else binlog.writeOpen (limits 1) list

variable (settings : Settings)

/-! ## Bundled removals and accesses -/

def writeMultiRemove (limits : Fin 2 → Option ℕ) (db : DatabaseObject) : Error × DatabaseObject :=
  if db.removing = [] then (Error.noError, db)
  else
    let keys := db.removing
    let db := { db with removing := [] }
    let header := Record.multiHead 0x03 keys.length (leBytes 12 0)
    let list := keys.flatMap Key.encode
    match writeBinlog limits header list db.binlog with
    | (true, binlog) =>
      let memory := db.memory.addExcess (header.length + list.length)
      (Error.noError, { db with binlog, memory })
    | (false, binlog) => (ioError db.binlogPath, { db with binlog := binlog.close })

def writeMultiRemoveLazy (limits : Fin 2 → Option ℕ) (db : DatabaseObject) : DatabaseObject :=
  if db.removing.length = settings.maxBundledRecords then (db.writeMultiRemove limits).2 else db

/-- The entries get their new time even when the log cannot be written. -/
def writeMultiAccessBlock (limits : Fin 2 → Option ℕ) (clock : Int32) (db : DatabaseObject) :
    Error × DatabaseObject :=
  let time := db.memory.countTimePoint clock
  let keys := db.accessed
  let header := Record.multiHead 0x04 keys.length time.encode
  let list := keys.flatMap Key.encode
  let memory := keys.foldl (fun m key => m.setUseTime time.relative key) { db.memory with time }
  let db := { db with accessed := [], memory }
  match writeBinlog limits header list db.binlog with
  | (true, binlog) =>
    let memory := db.memory.addExcess (header.length + list.length)
    (Error.noError, { db with binlog, memory })
  | (false, binlog) => (ioError db.binlogPath, { db with binlog := binlog.close })

def writeMultiAccess (limits : Fin 2 → Option ℕ) (clock : Int32) (db : DatabaseObject) :
    Error × DatabaseObject :=
  if db.accessed = [] then (Error.noError, db) else db.writeMultiAccessBlock limits clock

def recordEntryAccess (env : Env) (key : Key) (db : DatabaseObject) : DatabaseObject :=
  if settings.trackEstimatedTime then
    let db := { db with accessed := insertKey key db.accessed }
    if db.accessed.length = settings.maxBundledRecords then
      (db.writeMultiAccess env.accessLimits env.accessClock).2
    else db
  else db

def writeBundles (env : Env) (db : DatabaseObject) : DatabaseObject :=
  let db := (db.writeMultiRemove env.removeLimits).2
  if settings.trackEstimatedTime then
    (db.writeMultiAccess env.accessLimits env.accessClock).2
  else db

/-! ## Single keys -/

def remove (env : Env) (key : Key) (db : DatabaseObject) : Error × DatabaseObject :=
  match db.memory.map.lookup key with
  | none => (Error.noError, db)
  | some entry =>
    let db := { db with removing := insertKey key db.removing }
    let db := db.writeMultiRemoveLazy settings env.removeLimits
    let path := db.placePath entry.place
    let db := { db with memory := db.memory.eraseMapEntry key }
    if (db.disk path).isNone then (Error.noError, db)
    else if env.fileRemoved then (Error.noError, db.setFile path none)
    else (ioError path, db)

/-- The bytes of a value, or nothing when they are not all there. -/
def readValueData (place : PlaceId) (size : ℕ) (db : DatabaseObject) : List UInt8 :=
  match db.disk (db.placePath place) with
  | none => []
  | some content =>
    let data : PlainFile := { data := content, cursor := 0, mode := some .readOnly }
    let (bytes, _) := data.readWithPadding size
    if bytes.length = size then bytes else []

/-- The time of a new record: a change within `writeBundleDelay` is not worth a new value.
The result is `none` when the `Assert` on the relative time fails. -/
def recordTime (clock : Int32) (db : DatabaseObject) : Option EstimatedTimePoint :=
  if settings.trackEstimatedTime then
    let time := db.memory.countTimePoint clock
    let current := db.memory.time.relative
    if time.relative < current then none
    else if (time.relative - current) * 1000 < settings.writeBundleDelay then some db.memory.time
    else some time
  else some {}

/-- The end of both `write*PlaceGeneric`; the record is applied without its encryption. -/
def writeStore (limit : Option ℕ) (record : Store) (db : DatabaseObject) : Bool × DatabaseObject :=
  match db.binlog.writeOpen limit (record.encode settings.trackEstimatedTime) with
  | (false, binlog) => (false, { db with binlog := binlog.close })
  | (true, binlog) =>
    (true, { db with binlog, memory := (db.memory.processRecordStore settings record).2 })

/-- The path is empty when nothing changed, and also when the log could not be written. The
result is `none` when the value is too large or none of the random places is free. -/
def writeKeyPlace (env : Env) (key : Key) (value : TaggedValue) (checksum : UInt32)
    (db : DatabaseObject) : Option (Option (List Char) × DatabaseObject) := do
  let time ← db.recordTime settings env.storeClock
  let size := value.bytes.length
  let write (place : PlaceId) : Option (List Char) × DatabaseObject :=
    match db.writeStore settings env.storeLimit ⟨value.tag, size, place, checksum, key, time⟩ with
    | (false, db) => (some [], db)
    | (true, db) => (some (db.placePath place), db)
  if settings.maxDataSize < size then none
  else
    match db.memory.map.lookup key with
    | some already =>
      if already.tag = value.tag ∧ already.size = size ∧ already.checksum = checksum ∧
          db.readValueData already.place size = value.bytes then
        some (some [], db)
      else some (write already.place)
    | none =>
      let place ← env.places.find? db.isFreePlace
      some (write place)

def writeExistingPlace (env : Env) (key : Key) (entry : Entry) (db : DatabaseObject) :
    Option (Error × DatabaseObject) := do
  let time ← db.recordTime settings env.storeClock
  let write : Error × DatabaseObject :=
    match db.writeStore settings env.storeLimit
      ⟨entry.tag, entry.size, entry.place, entry.checksum, key, time⟩ with
    | (false, db) => (ioError db.binlogPath, db)
    | (true, db) => (Error.noError, db)
  match db.memory.map.lookup key with
  | some already =>
    if already.tag = entry.tag ∧ already.size = entry.size ∧ already.checksum = entry.checksum ∧
        db.readValueData already.place already.size = db.readValueData entry.place entry.size then
      some (Error.noError, db)
    else some write
  | none => some write

variable (xxh32 : List UInt8 → UInt32)

def put (env : Env) (key : Key) (value : TaggedValue) (db : DatabaseObject) :
    Option (Error × DatabaseObject) :=
  if value.bytes = [] then some (db.remove settings env key)
  else do
    let db := db.forget key
    let (maybepath, db) ← db.writeKeyPlace settings env key value (xxh32 value.bytes)
    match maybepath with
    | none => some (ioError db.binlogPath, db)
    | some [] => some (Error.noError, db.recordEntryAccess settings env key)
    | some path =>
      match env.dataOpen with
      | .failed left =>
        some (ioError path, ((db.setFile path left).remove settings env key).2)
      | .lockFailed left =>
        some ({ type := .lockFailed, path }, ((db.setFile path left).remove settings env key).2)
      | .success =>
        let (success, data) :=
          PlainFile.created.writeWithPadding env.dataLimits env.padding value.bytes
        let db := db.setFile path (some data.data)
        if success then some (Error.noError, db)
        else some (ioError path, (db.remove settings env key).2)

/-- `get` with the callback that receives the value. -/
def getWith {α : Type} (env : Env) (key : Key)
    (done : TaggedValue → DatabaseObject → Option (α × DatabaseObject)) (db : DatabaseObject) :
    Option (α × DatabaseObject) :=
  match db.memory.map.lookup key with
  | none => done {} db
  | some entry =>
    let bytes := db.readValueData entry.place entry.size
    if bytes = [] then done {} (db.remove settings env key).2
    else if xxh32 bytes ≠ entry.checksum then done {} (db.remove settings env key).2
    else do
      let (result, db) ← done ⟨bytes, entry.tag⟩ db
      some (result, db.recordEntryAccess settings env key)

def get (env : Env) (key : Key) (db : DatabaseObject) : Option (TaggedValue × DatabaseObject) :=
  db.getWith settings xxh32 env key fun value db => some (value, db)

def putIfEmpty (env : Env) (key : Key) (value : TaggedValue) (db : DatabaseObject) :
    Option (Error × DatabaseObject) :=
  if (db.memory.map.lookup key).isSome then some (Error.noError, db)
  else db.put settings xxh32 env key value

def copyIfEmpty (getEnv putEnv : Env) (source target : Key) (db : DatabaseObject) :
    Option (Error × DatabaseObject) :=
  if (db.memory.map.lookup target).isSome then some (Error.noError, db)
  else
    db.getWith settings xxh32 getEnv source fun value db =>
      db.put settings xxh32 putEnv target value

def moveIfEmpty (env : Env) (source target : Key) (db : DatabaseObject) :
    Option (Error × DatabaseObject) :=
  if (db.memory.map.lookup target).isSome then some (Error.noError, db)
  else
    match db.memory.map.lookup source with
    | none => some (Error.noError, db)
    | some entry =>
      let db := { db with
        removing := insertKey source db.removing
        memory := db.memory.eraseMapEntry source }
      let (error, db) := db.writeMultiRemove env.removeLimits
      if error.type ≠ .none then some (error, db)
      else (db.forget target).writeExistingPlace settings env target entry

/-! ## Pruning -/

/-- Each removal meets its own environment. -/
def removeKeys : List Key → (ℕ → Env) → DatabaseObject → DatabaseObject
  | [], _, db => db
  | key :: keys, env, db => removeKeys keys (fun i => env (i + 1)) (db.remove settings (env 0) key).2

/-- The last keys of `_stale` go first. -/
def clearStaleChunk (env : ℕ → Env) (db : DatabaseObject) : DatabaseObject :=
  let count := db.stale.length
  let clear := min count settings.staleRemoveChunk
  let cleared := removeKeys settings (db.stale.drop (count - clear)) env db
  { cleared with stale := db.stale.take (count - clear) }

def clearStaleNow (stale : List Key) (env : ℕ → Env) (db : DatabaseObject) : DatabaseObject :=
  if stale = [] then db else { removeKeys settings stale env db with stale := [] }

/-- What `prune` selects, and the memory after `collectTimeStale`. -/
def collectStale (clock : Int32) (db : DatabaseObject) : List Key × Memory :=
  let (stale, memory) := db.memory.collectTimeStale settings clock
  ((memory.collectSizeStale settings stale).1, memory)

def prune (clock : Int32) (env : ℕ → Env) (db : DatabaseObject) : DatabaseObject :=
  if db.stale ≠ [] then db
  else
    let (stale, memory) := db.collectStale settings clock
    let db := { db with memory }
    if stale.length ≤ settings.staleRemoveChunk then db.clearStaleNow settings stale env
    else { db with stale }.clearStaleChunk settings env

def clearByTag (env : ℕ → Env) (tag : UInt8) (db : DatabaseObject) : DatabaseObject :=
  let hadStale := db.stale ≠ []
  let tagged := db.memory.map.entries.filter fun b => b.2.tag = tag
  let db := { db with stale := db.stale ++ tagged.map Sigma.fst }
  if hadStale then db else db.clearStaleChunk settings env

/-! ## Opening and closing -/

structure OpenEnv where
  moved : Bool
  opened : File.Result
  headerClock : Int32
  headerLimit : Option ℕ
  adjustClock : Int32
  accessClock : Int32
  accessLimits : Fin 2 → Option ℕ

def OpenEnv.granted (clock : Int32) : OpenEnv where
  moved := true
  opened := .success
  headerClock := clock
  headerLimit := none
  adjustClock := clock
  accessClock := clock
  accessLimits := fun _ => none

def setTime (system : UInt32) (db : DatabaseObject) : DatabaseObject :=
  let time : EstimatedTimePoint := { relative := system.toUInt64, system := system }
  { db with memory := { db.memory with time } }

def readHeader (db : DatabaseObject) : Bool × DatabaseObject :=
  match BinlogWrapper.readHeader settings db.binlog with
  | (some header, binlog) => (true, { db with binlog }.setTime header.systemTime)
  | (none, binlog) => (false, { db with binlog })

def writeHeader (env : OpenEnv) (db : DatabaseObject) : Bool × DatabaseObject :=
  let now := if settings.trackEstimatedTime then getUnixtime env.headerClock else 0
  let header : BasicHeader := {
    flags := if settings.trackEstimatedTime then BasicHeader.kTrackEstimatedTime else 0
    systemTime := UInt32.ofNat now }
  let db := db.setTime header.systemTime
  let (success, binlog) := db.binlog.writeOpen env.headerLimit header.encode
  (success, { db with binlog })

def adjustRelativeTime (env : OpenEnv) (db : DatabaseObject) : DatabaseObject :=
  if settings.trackEstimatedTime ∧ getUnixtime env.adjustClock < db.memory.time.system.toNat then
    (db.writeMultiAccessBlock env.accessLimits env.accessClock).2
  else db

/-- The records of the log, applied to the memory one by one. -/
def replayBinlog (db : DatabaseObject) : DatabaseObject :=
  let wrapper := BinlogWrapper.create db.binlog 0
  let (wrapper, memory) := BinlogReader.readAll settings (fun bytes m => m.handleRecord settings bytes)
    (wrapper.till + 2) wrapper db.memory
  { db with binlog := wrapper.binlog, memory }

def readBinlog (env : OpenEnv) (db : DatabaseObject) : DatabaseObject :=
  (db.replayBinlog settings).adjustRelativeTime settings env

/-- The log file as `File::open` leaves it on success. -/
def openFile (mode : File.Mode) (binlog : PlainFile) : PlainFile :=
  match mode with
  | .read => binlog.reopen .readOnly
  | .readAppend => binlog.reopen .readWrite
  | .write => PlainFile.created

def openBinlog (folder : List Char) (mode : File.Mode) (env : OpenEnv) (db : DatabaseObject) :
    File.Result × DatabaseObject :=
  if db.ready.isSome ∧ !env.moved then (.failed, db)
  else
    let db := match db.ready with
      | some content => { db with binlog := { db.binlog with data := content }, ready := none }
      | none => db
    if env.opened ≠ .success then (env.opened, { db with binlog := db.binlog.close })
    else
      let db := { db with binlog := openFile mode db.binlog }
      let headerRequired := mode = .read ∨ (mode = .readAppend ∧ 0 < db.binlog.size)
      let (header, db) := if headerRequired then db.readHeader settings else db.writeHeader settings env
      if !header then (.failed, db)
      else (.success, { db with path := folder }.readBinlog settings env)

/-- `clearState`; the files stay. -/
def clearState (db : DatabaseObject) : DatabaseObject where
  binlog := db.binlog
  ready := db.ready
  disk := db.disk

def close (env : Env) (db : DatabaseObject) : DatabaseObject :=
  if db.binlog.mode.isSome then
    let db := db.writeBundles settings env
    { db with binlog := db.binlog.close }.clearState
  else db.clearState

end DatabaseObject

end Bettergram.Storage.Cache
