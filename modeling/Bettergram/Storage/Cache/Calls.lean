import Bettergram.Storage.Cache.DatabaseObject

/-! # Calls and what they are made of

A call on an open database, or a timer that fires, is a `Call`; a list of them
is a run. Every call is a sequence of a few kinds of `Event`, so an invariant
of runs is proved event by event.
-/

namespace Bettergram.Storage.Cache
open Foundation

/-- The public calls, the timers, and a change of the iteration order of the map. -/
inductive Call where
  | put (env : Env) (key : Key) (value : TaggedValue)
  | get (env : Env) (key : Key)
  | remove (env : Env) (key : Key)
  | putIfEmpty (env : Env) (key : Key) (value : TaggedValue)
  | copyIfEmpty (getEnv putEnv : Env) (source target : Key)
  | moveIfEmpty (env : Env) (source target : Key)
  | clearByTag (env : ℕ → Env) (tag : UInt8)
  | prune (clock : Int32) (env : ℕ → Env)
  | clearStaleChunk (env : ℕ → Env)
  | writeBundles (env : Env)
  | rehash (order : List (Sigma fun _ : Key => Entry))

inductive Answer where
  | done (error : Error)
  | value (value : TaggedValue)
  | nothing
  deriving DecidableEq

namespace DatabaseObject

def rehash (order : List (Sigma fun _ : Key => Entry)) (db : DatabaseObject) : DatabaseObject :=
  if h : order.Perm db.memory.map.entries then
    let map : EntryMap := ⟨order, (List.perm_nodupKeys h).mpr db.memory.map.nodupKeys⟩
    { db with memory := { db.memory with map } }
  else db

variable (settings : Settings) (xxh32 : List UInt8 → UInt32)

def perform (call : Call) (db : DatabaseObject) : Option (Answer × DatabaseObject) :=
  let answer (r : Error × DatabaseObject) : Answer × DatabaseObject := (.done r.1, r.2)
  match call with
  | .put env key value => (db.put settings xxh32 env key value).map answer
  | .get env key => (db.get settings xxh32 env key).map fun r => (.value r.1, r.2)
  | .remove env key => some (answer (db.remove settings env key))
  | .putIfEmpty env key value => (db.putIfEmpty settings xxh32 env key value).map answer
  | .copyIfEmpty getEnv putEnv source target =>
    (db.copyIfEmpty settings xxh32 getEnv putEnv source target).map answer
  | .moveIfEmpty env source target => (db.moveIfEmpty settings env source target).map answer
  | .clearByTag env tag => some (.done Error.noError, db.clearByTag settings env tag)
  | .prune clock env => some (.nothing, db.prune settings clock env)
  | .clearStaleChunk env => some (.nothing, db.clearStaleChunk settings env)
  | .writeBundles env => some (.nothing, db.writeBundles settings env)
  | .rehash order => some (.nothing, db.rehash order)

/-- The answers of a run and the database afterwards. -/
def run : List Call → DatabaseObject → Option (List Answer × DatabaseObject)
  | [], db => some ([], db)
  | call :: calls, db => do
    let (answer, db) ← db.perform settings xxh32 call
    let (answers, db) ← db.run calls
    some (answer :: answers, db)

end DatabaseObject

/-! ## Conditions on the environment -/

/-- What is required of the limits of the writes to the log. -/
structure Env.Limits (ok : Option ℕ → Prop) (env : Env) : Prop where
  store : ok env.storeLimit
  remove : ∀ i, ok (env.removeLimits i)
  access : ∀ i, ok (env.accessLimits i)

def Call.Limits (ok : Option ℕ → Prop) : Call → Prop
  | put env _ _ => env.Limits ok
  | get env _ => env.Limits ok
  | remove env _ => env.Limits ok
  | putIfEmpty env _ _ => env.Limits ok
  | copyIfEmpty getEnv putEnv _ _ => getEnv.Limits ok ∧ putEnv.Limits ok
  | moveIfEmpty env _ _ => env.Limits ok
  | clearByTag env _ => ∀ i, (env i).Limits ok
  | prune _ env => ∀ i, (env i).Limits ok
  | clearStaleChunk env => ∀ i, (env i).Limits ok
  | writeBundles env => env.Limits ok
  | rehash _ => True

/-! ## Events -/

variable (settings : Settings) (ok : Option ℕ → Prop)

namespace DatabaseObject

/-- `_removing` and `_accessed` are written out before they are full. -/
structure Bundled (db : DatabaseObject) : Prop where
  removing : db.removing.length < settings.maxBundledRecords
  accessed : db.accessed.length < settings.maxBundledRecords

/-- The removal of an entry, without its file. -/
def unmap (key : Key) (db : DatabaseObject) : DatabaseObject :=
  { db with
    removing := insertKey key db.removing
    memory := db.memory.eraseMapEntry key }

end DatabaseObject

open DatabaseObject in
inductive Event : DatabaseObject → DatabaseObject → Prop
  | forget {db : DatabaseObject} {key : Key} {entry : Entry}
      (h : db.memory.map.lookup key = some entry) : Event db (db.forget key)
  | store {db : DatabaseObject} (clock : Int32) {limit : Option ℕ} (record : Store)
      (hlimit : ok limit) (htime : db.recordTime settings clock = some record.time)
      (hpos : record.size ≠ 0) (hsize : record.size ≤ settings.maxDataSize) :
      Event db ((db.forget record.key).writeStore settings limit record).2
  | unmap {db : DatabaseObject} {key : Key} {entry : Entry}
      (h : db.memory.map.lookup key = some entry) : Event db (db.unmap key)
  | removes {db : DatabaseObject} {limits : Fin 2 → Option ℕ} (hlimits : ∀ i, ok (limits i))
      (hne : db.removing ≠ []) (hlen : db.removing.length ≤ settings.maxBundledRecords) :
      Event db (db.writeMultiRemove limits).2
  | access {db : DatabaseObject} (key : Key) (htracked : settings.trackEstimatedTime = true) :
      Event db { db with accessed := insertKey key db.accessed }
  | accesses {db : DatabaseObject} {limits : Fin 2 → Option ℕ} (clock : Int32)
      (hlimits : ∀ i, ok (limits i)) (htracked : settings.trackEstimatedTime = true)
      (hlen : db.accessed.length ≤ settings.maxBundledRecords) :
      Event db (db.writeMultiAccessBlock limits clock).2
  | disk {db : DatabaseObject} (disk : List Char → Option (List UInt8)) : Event db { db with disk }
  | stale {db : DatabaseObject} (stale : List Key) : Event db { db with stale }
  | collect {db : DatabaseObject} (clock : Int32) :
      Event db { db with memory := (db.collectStale settings clock).2 }
  | rehash {db : DatabaseObject} (order : List (Sigma fun _ : Key => Entry)) :
      Event db (db.rehash order)

/-- Some events lead from one state to another in which the bundles are not full. -/
structure Leads (db db' : DatabaseObject) : Prop where
  events : Relation.ReflTransGen (Event settings ok) db db'
  bundled : db'.Bundled settings

end Bettergram.Storage.Cache

/-! ## The compactor beside the database

`CompactorObject` rewrites the log into a second file while the database goes
on: it reads a chunk of the old log, asks the database for the entries of the
keys in it, writes them, and at the end copies what was appended meanwhile. Its
steps run between the calls of the database. A step in which a file operation
fails ends the compaction and removes the second file.
-/

namespace Bettergram.Storage.Cache
open Foundation

abbrev Raw := Sigma fun _ : Key => Entry

structure CompactorInfo where
  till : ℕ
  systemTime : UInt32

/-- What the compactor does next: start, wait for `getManyRaw`, take its answer, copy what was
appended since `start`, or wait for `compactorDone`. -/
inductive CompactorState where
  | created
  | asking (keys : List Key)
  | answered (values : List Raw)
  | catchingUp (start : ℕ) (lastCatchUp : ℕ)
  | finished (till : ℕ)

/-- `compact` is the second file; `excessLength` is kept for it by the database. -/
structure CompactorObject where
  info : CompactorInfo
  excessLength : ℤ
  wrapper : BinlogWrapper
  compact : List UInt8
  written : List Key
  list : List Store
  state : CompactorState

namespace CompactorObject

variable (settings : Settings)

def keysOf : Record → List Key
  | .store record => [record.key]
  | .multiStore parts => parts.map Store.key
  | .multiRemove _ => []
  | .multiAccess _ _ => []

/-- The handlers of `readBlock` take every record. -/
def pushKeys (bytes : List UInt8) (result : List Key) : Bool × List Key :=
  (true, result ++ keysOf (Record.decode settings.trackEstimatedTime bytes))

/-- `readChunk`; every block read but the last moves the cursor on. -/
def readChunk : ℕ → BinlogWrapper → List Key → BinlogWrapper × List Key
  | 0, w, result => (w, result)
  | fuel + 1, w, result =>
    if settings.compactChunkSize ≤ result.length then (w, result)
    else
      match BinlogReader.readTillEnd settings (pushKeys settings) w result with
      | (true, w, result) => (w, result)
      | (false, w, result) => readChunk fuel w result

/-- An empty list is not written. -/
def writeList (c : CompactorObject) : CompactorObject :=
  if c.list = [] then c
  else
    let tracked := settings.trackEstimatedTime
    { c with
      compact := c.compact ++ (Record.multiStore c.list).encode tracked
      list := [] }

def recordOf (info : CompactorInfo) (raw : Raw) : Store where
  tag := raw.2.tag
  size := raw.2.size
  place := raw.2.place
  checksum := raw.2.checksum
  key := raw.1
  time := if settings.trackEstimatedTime then ⟨raw.2.useTime, info.systemTime⟩ else {}

def addListRecord (raw : Raw) (c : CompactorObject) : CompactorObject :=
  if raw.1 ∈ c.written then c
  else { c with written := raw.1 :: c.written, list := c.list ++ [recordOf settings c.info raw] }

/-- The values that no longer fit into the list are left. -/
def fillList : List Raw → CompactorObject → List Raw × CompactorObject
  | [], c => ([], c)
  | raw :: rest, c =>
    if c.list.length = settings.maxBundledRecords then (raw :: rest, c)
    else fillList rest (c.addListRecord settings raw)

/-- The loop of `processValues`; a full list is written before more values are taken. -/
def fillLists : ℕ → List Raw → CompactorObject → CompactorObject
  | 0, _, c => c
  | fuel + 1, values, c =>
    match c.fillList settings values with
    | ([], c) => c
    | (left, c) => fillLists fuel left (c.writeList settings)

/-- The reader of the compactor sees the log file as it is now. -/
def refresh (log : List UInt8) (c : CompactorObject) : CompactorObject :=
  { c with wrapper := { c.wrapper with binlog := { c.wrapper.binlog with data := log } } }

/-- `none` is `fail`. Without more keys the last list is written and the copying begins. -/
def parseChunk (log : List UInt8) (c : CompactorObject) : Option CompactorObject :=
  let c := c.refresh log
  let (wrapper, keys) := readChunk settings (c.wrapper.till + 2) c.wrapper []
  let c := { c with wrapper }
  if wrapper.failed then none
  else if keys = [] then some { c.writeList settings with state := .catchingUp c.info.till 0 }
  else some { c with state := .asking keys }

/-- `start`: the header is copied, and the first chunk is parsed. -/
def start (log : List UInt8) (c : CompactorObject) : Option CompactorObject :=
  let binlog : PlainFile := { data := log, cursor := 0, mode := some .readOnly }
  if binlog.size < c.info.till then none
  else
    match BinlogWrapper.readHeader settings binlog with
    | (none, _) => none
    | (some _, binlog) =>
      let wrapper := BinlogWrapper.create binlog c.info.till
      { c with wrapper, compact := log.take 16 }.parseChunk settings log

def processValues (log : List UInt8) (values : List Raw) (c : CompactorObject) :
    Option CompactorObject :=
  (c.fillLists settings (2 * values.length + 2) values).parseChunk settings log

/-- The loop of `CatchUp` over blocks of the log. -/
def copyBlocks : ℕ → PlainFile → ℕ → List UInt8 → Option (List UInt8)
  | 0, _, _, _ => none
  | fuel + 1, binlog, till, compact =>
    let limit := min (till - binlog.cursor) settings.readBlockSize
    let (bytes, binlog) := binlog.read limit
    if bytes = [] then none
    else if binlog.cursor = till then some (compact ++ bytes)
    else copyBlocks fuel binlog till (compact ++ bytes)

/-- `CatchUp`: how far the log was copied, and the second file. -/
def catchUp (log : List UInt8) (start : ℕ) (compact : List UInt8) : Option (ℕ × List UInt8) :=
  let binlog : PlainFile := { data := log, cursor := 0, mode := some .readOnly }
  let till := binlog.size
  if till = start then some (till, compact)
  else if till < start then none
  else (copyBlocks settings (till + 1) (binlog.seek start) till compact).map fun c => (till, c)

/-- One round of the loop of `finalize`. A result of zero counts as a failure there. -/
def finalize (log : List UInt8) (start lastCatchUp : ℕ) (c : CompactorObject) :
    Option CompactorObject :=
  match catchUp settings log start c.compact with
  | none => none
  | some (till, compact) =>
    if till = 0 then none
    else if till = start ∨ (0 < lastCatchUp ∧ lastCatchUp ≤ till - start) then
      some { c with compact, state := .finished till }
    else some { c with compact, state := .catchingUp till (till - start) }

end CompactorObject

/-- How `File::Move` over the log ends; a failure may have removed the log already. -/
inductive MoveResult where
  | moved
  | failed
  | lost

structure DoneEnv where
  readyMoved : Bool
  binlogMoved : MoveResult
  opened : Bool

def DoneEnv.granted : DoneEnv where
  readyMoved := true
  binlogMoved := .moved
  opened := true

namespace DatabaseObject

variable (settings : Settings)

def getManyRaw (keys : List Key) (db : DatabaseObject) : List Raw :=
  keys.filterMap fun key => (db.memory.map.lookup key).map fun entry => ⟨key, entry⟩

def compactorFail (db : DatabaseObject) : DatabaseObject := { db with ready := none }

/-- Whether the log was replaced by the compacted one, and the database. -/
def compactorDone (env : DoneEnv) (compact : List UInt8) (excessLength : ℤ)
    (originalReadTill : ℕ) (db : DatabaseObject) : Bool × DatabaseObject :=
  let size := db.binlog.size
  let caughtUp :=
    if originalReadTill = size then some (size, compact)
    else CompactorObject.catchUp settings db.binlog.data originalReadTill compact
  match caughtUp with
  | none => (false, db.compactorFail)
  | some (till, compact) =>
    if till ≠ size then (false, db.compactorFail)
    else if !env.readyMoved then (false, db.compactorFail)
    else
      let db := { db with ready := some compact, binlog := db.binlog.close }
      match env.binlogMoved with
      | .failed => (false, db.compactorFail)
      | .lost => (false, { db with binlog := { db.binlog with data := [] } }.compactorFail)
      | .moved =>
        let db := { db with ready := none, binlog := { db.binlog with data := compact } }
        if !env.opened then (false, db.compactorFail)
        else
          let binlog := db.binlog.reopen .readWrite
          let memory := db.memory.addExcess (-excessLength)
          (true, { db with binlog := binlog.seek binlog.size, memory })

/-- Whether a compaction is due; the time of the next attempt is not kept. -/
def compactorDue (db : DatabaseObject) : Bool :=
  settings.compactAfterExcess ≠ 0 ∧ settings.compactAfterExcess ≤ db.memory.binlogExcessLength ∧
    ¬(settings.compactAfterFullSize ≠ 0 ∧
      db.memory.binlogExcessLength * settings.compactAfterFullSize <
        settings.compactAfterExcess * db.binlog.size) ∧
    db.binlog.mode.isSome

/-- `checkCompactor`, when there is no compactor yet. -/
def checkCompactor (db : DatabaseObject) : Option CompactorObject :=
  if db.compactorDue settings then
    some {
      info := { till := db.binlog.size, systemTime := db.memory.time.system }
      excessLength := db.memory.binlogExcessLength
      wrapper := BinlogWrapper.create db.binlog db.binlog.size
      compact := []
      written := []
      list := []
      state := .created }
  else none

end DatabaseObject

end Bettergram.Storage.Cache
