import Bettergram.Storage.Cache.Types
import Mathlib.Data.List.Sort

/-! # The cache in memory

The map of entries with the clock, the totals and the pruning bookkeeping that
`setMapEntry` and `eraseMapEntry` keep up, and how one record of the log is
applied to it. The order of the entries is the iteration order of the map.
-/

namespace Bettergram.Storage.Cache
open Foundation

structure Entry where
  useTime : UInt64 := 0
  size : ℕ := 0
  checksum : UInt32 := 0
  place : PlaceId := Vector.replicate 7 0
  tag : UInt8 := 0
  deriving DecidableEq

abbrev EntryMap := AList fun _ : Key => Entry

/-- `GetUnixtime` for a reading of `time(nullptr)`. -/
def getUnixtime (clock : Int32) : ℕ := (max clock.toInt 1).toNat

structure Memory where
  map : EntryMap := ∅
  time : EstimatedTimePoint := {}
  binlogExcessLength : ℤ := 0
  totalSize : ℤ := 0
  minimalEntryTime : UInt64 := 0
  entriesWithMinimalTimeCount : ℤ := 0
  taggedStats : UInt8 → TaggedSummary := fun _ => {}

namespace Memory

def modifyTag (tag : UInt8) (count size : ℤ) (m : Memory) : Memory :=
  let summary := m.taggedStats tag
  let changed := ⟨summary.count + count, summary.totalSize + size⟩
  { m with taggedStats := Function.update m.taggedStats tag changed }

/-- One for an entry, zero for the default entry that stands for none. -/
def present (e : Entry) : ℤ := if e.size = 0 then 0 else 1

def updateStats (was now : Entry) (m : Memory) : Memory :=
  let m := { m with totalSize := m.totalSize + (now.size - was.size) }
  if now.tag = was.tag then
    if now.tag = 0 then m
    else m.modifyTag now.tag (present now - present was) (now.size - was.size)
  else
    let m := if now.tag = 0 then m else m.modifyTag now.tag (present now) now.size
    if was.tag = 0 then m else m.modifyTag was.tag (-present was) (-was.size)

/-- The counted entries with the minimal time become one less. -/
def dropMinimal (m : Memory) : Memory :=
  let count := m.entriesWithMinimalTimeCount - 1
  { m with
    entriesWithMinimalTimeCount := count
    minimalEntryTime := if count = 0 then 0 else m.minimalEntryTime }

def countMinimal (already entry : Entry) (m : Memory) : Memory :=
  if entry.useTime ≠ 0 ∧ (entry.useTime < m.minimalEntryTime ∨ m.minimalEntryTime = 0) then
    { m with minimalEntryTime := entry.useTime, entriesWithMinimalTimeCount := 1 }
  else if m.minimalEntryTime ≠ 0 ∧ already.useTime ≠ entry.useTime then
    if entry.useTime = m.minimalEntryTime then
      { m with entriesWithMinimalTimeCount := m.entriesWithMinimalTimeCount + 1 }
    else if already.useTime = m.minimalEntryTime then m.dropMinimal
    else m
  else m

def setMapEntry (tracked : Bool) (key : Key) (entry : Entry) (m : Memory) : Memory :=
  let already := (m.map.lookup key).getD {}
  let m := m.updateStats already entry
  let m := if already.size = 0 then m
    else { m with binlogExcessLength := m.binlogExcessLength + Store.sizeOf tracked }
  let m := m.countMinimal already entry
  { m with map := m.map.insert key entry }

def eraseMapEntry (key : Key) (m : Memory) : Memory :=
  match m.map.lookup key with
  | none => m
  | some entry =>
    let m := m.updateStats entry {}
    let m := if m.minimalEntryTime ≠ 0 ∧ entry.useTime = m.minimalEntryTime then m.dropMinimal
      else m
    { m with map := m.map.erase key }

def applyTimePoint (time : EstimatedTimePoint) (m : Memory) : Memory :=
  if m.time.relative < time.relative then { m with time } else m

/-- `i->second.useTime = relative` for a key that is in the map. -/
def setUseTime (relative : UInt64) (key : Key) (m : Memory) : Memory :=
  match m.map.lookup key with
  | none => m
  | some entry => { m with map := m.map.insert key { entry with useTime := relative } }

def addExcess (length : ℤ) (m : Memory) : Memory :=
  { m with binlogExcessLength := m.binlogExcessLength + length }

def countTimePoint (clock : Int32) (m : Memory) : EstimatedTimePoint :=
  let now := getUnixtime clock
  let delta := now - m.time.system.toNat
  { relative := m.time.relative + UInt64.ofNat delta, system := UInt32.ofNat now }

variable (settings : Settings)

/-- The tracked record moves the clock and brings its own time. -/
def processRecordStore (record : Store) (m : Memory) : Bool × Memory :=
  if record.size = 0 ∨ settings.maxDataSize < record.size then (false, m)
  else
    let entry : Entry := {
      useTime := m.time.relative
      size := record.size
      checksum := record.checksum
      place := record.place
      tag := record.tag }
    if settings.trackEstimatedTime then
      let m := m.applyTimePoint record.time
      (true, m.setMapEntry true record.key { entry with useTime := record.time.relative })
    else (true, m.setMapEntry false record.key entry)

/-- The parts before a bad one have been applied when it is met. -/
def processRecordMultiStore : List Store → Memory → Bool × Memory
  | [], m => (true, m)
  | record :: rest, m =>
    match m.processRecordStore settings record with
    | (true, m) => processRecordMultiStore rest m
    | (false, m) => (false, m)

def processRecordMultiRemove (keys : List Key) (m : Memory) : Memory :=
  keys.foldl (fun m key => (m.addExcess 16).eraseMapEntry key) (m.addExcess 16)

def processRecordMultiAccess (time : EstimatedTimePoint) (keys : List Key) (m : Memory) : Memory :=
  keys.foldl (fun m key => (m.addExcess 16).setUseTime time.relative key)
    ((m.applyTimePoint time).addExcess 16)

/-- The handlers of `readBinlog`. -/
def processRecord : Record → Memory → Bool × Memory
  | .store record, m => m.processRecordStore settings record
  | .multiStore parts, m => m.processRecordMultiStore settings parts
  | .multiRemove keys, m => (true, m.processRecordMultiRemove keys)
  | .multiAccess time keys, m => (true, m.processRecordMultiAccess time keys)

def handleRecord (bytes : List UInt8) (m : Memory) : Bool × Memory :=
  m.processRecord settings (Record.decode settings.trackEstimatedTime bytes)

def pruneBeforeTime (clock : Int32) (m : Memory) : UInt64 :=
  let relative := (m.countTimePoint clock).relative
  if settings.totalTimeLimit ≠ 0 ∧ settings.totalTimeLimit < relative then
    relative - settings.totalTimeLimit
  else 0

end Memory

/-! ## Sets of keys -/

def insertKey (key : Key) (keys : List Key) : List Key :=
  if key ∈ keys then keys else keys.orderedInsert Key.le key

@[simp] theorem mem_insertKey {key k : Key} {keys : List Key} :
    k ∈ insertKey key keys ↔ k = key ∨ k ∈ keys := by
  unfold insertKey
  split
  · next h =>
    constructor
    · exact .inr
    · rintro (rfl | hk)
      · exact h
      · exact hk
  · rw [List.mem_orderedInsert]

theorem length_insertKey_le (key : Key) (keys : List Key) :
    (insertKey key keys).length ≤ keys.length + 1 := by
  unfold insertKey
  split
  · omega
  · rw [List.orderedInsert_length]

/-! ## Choosing what to prune -/

namespace Memory

variable (settings : Settings)

/-- The loop of `collectTimeStale`: the stale keys with their total size, and the minimal time
of the entries that stay. -/
def collectEntry (before : UInt64) (key : Key) (entry : Entry) (stale : List Key × ℤ)
    (m : Memory) : (List Key × ℤ) × Memory :=
  if entry.useTime ≤ before then
    ((insertKey key stale.1, stale.2 + entry.size), m)
  else if m.minimalEntryTime = 0 ∨ entry.useTime < m.minimalEntryTime then
    (stale, { m with minimalEntryTime := entry.useTime, entriesWithMinimalTimeCount := 1 })
  else if m.minimalEntryTime = entry.useTime then
    (stale, { m with entriesWithMinimalTimeCount := m.entriesWithMinimalTimeCount + 1 })
  else (stale, m)

def collectEntries (before : UInt64) :
    List (Sigma fun _ : Key => Entry) → List Key × ℤ → Memory → (List Key × ℤ) × Memory
  | [], stale, m => (stale, m)
  | ⟨key, entry⟩ :: rest, stale, m =>
    let (stale, m) := m.collectEntry before key entry stale
    collectEntries before rest stale m

def collectTimeStale (clock : Int32) (m : Memory) : (List Key × ℤ) × Memory :=
  if settings.totalTimeLimit = 0 then (([], 0), m)
  else
    let before := m.pruneBeforeTime settings clock
    if m.minimalEntryTime = 0 ∨ before < m.minimalEntryTime then (([], 0), m)
    else
      collectEntries before m.map.entries ([], 0)
        { m with minimalEntryTime := 0, entriesWithMinimalTimeCount := 0 }

/-- The buckets of `collectSizeStale`, latest use first; equal times in order of arrival. -/
abbrev Bucket := Sigma fun _ : Key => Entry

def bucketTime (b : Bucket) : ℤ := b.2.useTime.toInt64.toInt

def emplaceOldest (b : Bucket) : List Bucket → List Bucket
  | [] => [b]
  | c :: rest =>
    if bucketTime c < bucketTime b then b :: c :: rest else c :: emplaceOldest b rest

/-- Drop the latest buckets while the older new entry still makes up for them. -/
def removeFirst (removeSize : ℤ) (adding : Entry) : List Bucket → ℤ → List Bucket × ℤ
  | [], total => ([], total)
  | first :: rest, total =>
    if adding.useTime ≤ first.2.useTime ∧ first.2.size ≤ total + adding.size - removeSize then
      removeFirst removeSize adding rest (total - first.2.size)
    else (first :: rest, total)

def addOldest (removeSize : ℤ) (b : Bucket) (oldest : List Bucket × ℤ) : List Bucket × ℤ :=
  let add := oldest.2 < removeSize ∨ ∃ first ∈ oldest.1.head?, b.2.useTime < first.2.useTime
  if add then
    let (kept, total) := removeFirst removeSize b.2 oldest.1 oldest.2
    (emplaceOldest b kept, total + b.2.size)
  else oldest

def collectSizeStale (stale : List Key × ℤ) (m : Memory) : List Key × ℤ :=
  let removeSize := if 0 < settings.totalSizeLimit then
    m.totalSize - stale.2 - settings.totalSizeLimit else 0
  if removeSize ≤ 0 then stale
  else
    let fresh := m.map.entries.filter fun b => b.1 ∉ stale.1
    let oldest := fresh.foldl (fun oldest b => addOldest removeSize b oldest) ([], 0)
    (oldest.1.foldl (fun keys b => insertKey b.1 keys) stale.1, stale.2 + oldest.2)

end Memory

end Bettergram.Storage.Cache

/-! ## What the steps in memory leave alone

Each step changes the fields it is named for: the totals, the minimal time, the
clock or the map. The map itself changes only by inserting and erasing.
-/

namespace Bettergram.Storage.Cache

namespace Memory

variable (m : Memory)

@[simp] theorem updateStats_frame (was now : Entry) :
    (m.updateStats was now).map = m.map ∧ (m.updateStats was now).time = m.time ∧
      (m.updateStats was now).minimalEntryTime = m.minimalEntryTime ∧
      (m.updateStats was now).entriesWithMinimalTimeCount = m.entriesWithMinimalTimeCount ∧
      (m.updateStats was now).binlogExcessLength = m.binlogExcessLength := by
  unfold updateStats modifyTag
  dsimp only
  split_ifs <;> exact ⟨rfl, rfl, rfl, rfl, rfl⟩

@[simp] theorem dropMinimal_frame :
    m.dropMinimal.map = m.map ∧ m.dropMinimal.time = m.time ∧
      m.dropMinimal.totalSize = m.totalSize ∧ m.dropMinimal.taggedStats = m.taggedStats :=
  ⟨rfl, rfl, rfl, rfl⟩

@[simp] theorem countMinimal_frame (already entry : Entry) :
    (m.countMinimal already entry).map = m.map ∧ (m.countMinimal already entry).time = m.time ∧
      (m.countMinimal already entry).totalSize = m.totalSize ∧
      (m.countMinimal already entry).taggedStats = m.taggedStats := by
  unfold countMinimal
  split_ifs <;> exact ⟨rfl, rfl, rfl, rfl⟩

@[simp] theorem addExcess_frame (length : ℤ) :
    (m.addExcess length).map = m.map ∧ (m.addExcess length).time = m.time ∧
      (m.addExcess length).minimalEntryTime = m.minimalEntryTime ∧
      (m.addExcess length).entriesWithMinimalTimeCount = m.entriesWithMinimalTimeCount ∧
      (m.addExcess length).totalSize = m.totalSize ∧
      (m.addExcess length).taggedStats = m.taggedStats :=
  ⟨rfl, rfl, rfl, rfl, rfl, rfl⟩

@[simp] theorem applyTimePoint_frame (time : EstimatedTimePoint) :
    (m.applyTimePoint time).map = m.map ∧
      (m.applyTimePoint time).minimalEntryTime = m.minimalEntryTime ∧
      (m.applyTimePoint time).entriesWithMinimalTimeCount = m.entriesWithMinimalTimeCount ∧
      (m.applyTimePoint time).totalSize = m.totalSize ∧
      (m.applyTimePoint time).taggedStats = m.taggedStats := by
  unfold applyTimePoint
  split_ifs <;> exact ⟨rfl, rfl, rfl, rfl, rfl⟩

@[simp] theorem setMapEntry_map (tracked : Bool) (key : Key) (entry : Entry) :
    (m.setMapEntry tracked key entry).map = m.map.insert key entry := by
  unfold setMapEntry
  dsimp only
  split_ifs <;> simp

@[simp] theorem setMapEntry_time (tracked : Bool) (key : Key) (entry : Entry) :
    (m.setMapEntry tracked key entry).time = m.time := by
  unfold setMapEntry
  dsimp only
  split_ifs <;> simp

@[simp] theorem eraseMapEntry_map (key : Key) : (m.eraseMapEntry key).map = m.map.erase key := by
  unfold eraseMapEntry
  split
  · next h =>
    have hkey : key ∉ m.map := AList.lookup_eq_none.mp h
    apply AList.ext
    exact (List.kerase_of_notMem_keys hkey).symm
  · dsimp only
    split_ifs <;> simp

@[simp] theorem eraseMapEntry_time (key : Key) : (m.eraseMapEntry key).time = m.time := by
  unfold eraseMapEntry
  split
  · rfl
  · dsimp only
    split_ifs <;> simp

@[simp] theorem setUseTime_frame (relative : UInt64) (key : Key) :
    (m.setUseTime relative key).time = m.time ∧
      (m.setUseTime relative key).totalSize = m.totalSize ∧
      (m.setUseTime relative key).taggedStats = m.taggedStats ∧
      (m.setUseTime relative key).minimalEntryTime = m.minimalEntryTime ∧
      (m.setUseTime relative key).entriesWithMinimalTimeCount = m.entriesWithMinimalTimeCount := by
  unfold setUseTime
  split <;> exact ⟨rfl, rfl, rfl, rfl, rfl⟩

theorem lookup_setMapEntry (tracked : Bool) (key : Key) (entry : Entry) (k : Key) :
    (m.setMapEntry tracked key entry).map.lookup k = if k = key then some entry else m.map.lookup k := by
  rw [setMapEntry_map]
  split
  · next h => rw [h, AList.lookup_insert]
  · next h => rw [AList.lookup_insert_ne h]

theorem lookup_eraseMapEntry (key k : Key) :
    (m.eraseMapEntry key).map.lookup k = if k = key then none else m.map.lookup k := by
  rw [eraseMapEntry_map]
  split
  · next h => rw [h, AList.lookup_erase]
  · next h => rw [AList.lookup_erase_ne h]

theorem lookup_setUseTime (relative : UInt64) (key k : Key) :
    (m.setUseTime relative key).map.lookup k =
      if k = key then (m.map.lookup k).map fun e => { e with useTime := relative }
      else m.map.lookup k := by
  unfold setUseTime
  split
  · next h =>
    split
    · next hk => rw [hk, h, Option.map_none]
    · rfl
  · next entry h =>
    split
    · next hk => rw [hk, h, AList.lookup_insert, Option.map_some]
    · next hk => rw [AList.lookup_insert_ne hk]

/-- Accesses set the time of every listed key that is in the map. -/
theorem lookup_foldl_setUseTime (relative : UInt64) (keys : List Key) (m : Memory) (k : Key) :
    (keys.foldl (fun m key => m.setUseTime relative key) m).map.lookup k =
      if k ∈ keys then (m.map.lookup k).map fun e => { e with useTime := relative }
      else m.map.lookup k := by
  induction keys generalizing m with
  | nil => simp
  | cons key keys ih =>
    rw [List.foldl_cons, ih, lookup_setUseTime]
    by_cases hk : k = key
    · cases m.map.lookup k <;> simp [hk]
    · simp [hk]

/-- The fold of accesses only changes the map. -/
theorem foldl_setUseTime_frame (relative : UInt64) (keys : List Key) (m : Memory) :
    let after := keys.foldl (fun m key => m.setUseTime relative key) m
    after.time = m.time ∧ after.totalSize = m.totalSize ∧ after.taggedStats = m.taggedStats ∧
      after.minimalEntryTime = m.minimalEntryTime ∧
      after.entriesWithMinimalTimeCount = m.entriesWithMinimalTimeCount := by
  induction keys generalizing m with
  | nil => exact ⟨rfl, rfl, rfl, rfl, rfl⟩
  | cons key keys ih =>
    obtain ⟨h₁, h₂, h₃, h₄, h₅⟩ := m.setUseTime_frame relative key
    obtain ⟨i₁, i₂, i₃, i₄, i₅⟩ := ih (m.setUseTime relative key)
    exact ⟨i₁.trans h₁, i₂.trans h₂, i₃.trans h₃, i₄.trans h₄, i₅.trans h₅⟩

/-! ## Records -/

variable {settings : Settings}

/-- A size the code accepts. -/
def ValidSize (settings : Settings) (size : ℕ) : Prop := size ≠ 0 ∧ size ≤ settings.maxDataSize

instance (settings : Settings) (size : ℕ) : Decidable (ValidSize settings size) := by
  unfold ValidSize
  infer_instance

/-- The entry a `Store` makes; without tracking its time is that of the clock. -/
def entryOf (settings : Settings) (record : Store) (relative : UInt64) : Entry where
  useTime := if settings.trackEstimatedTime then record.time.relative else relative
  size := record.size
  checksum := record.checksum
  place := record.place
  tag := record.tag

theorem processRecordStore_of_valid {record : Store} (h : ValidSize settings record.size) :
    m.processRecordStore settings record =
      (true, (if settings.trackEstimatedTime then m.applyTimePoint record.time else m).setMapEntry
        settings.trackEstimatedTime record.key (entryOf settings record m.time.relative)) := by
  obtain ⟨hpos, hle⟩ := h
  have hbad : ¬(record.size = 0 ∨ settings.maxDataSize < record.size) := by omega
  unfold processRecordStore entryOf
  rw [if_neg hbad]
  cases settings.trackEstimatedTime <;> rfl

theorem processRecordStore_of_not_valid {record : Store} (h : ¬ValidSize settings record.size) :
    m.processRecordStore settings record = (false, m) := by
  have hbad : record.size = 0 ∨ settings.maxDataSize < record.size := by
    simp only [ValidSize] at h
    omega
  rw [processRecordStore, if_pos hbad]

theorem lookup_processRecordStore {record : Store} (h : ValidSize settings record.size) (k : Key) :
    (m.processRecordStore settings record).2.map.lookup k =
      if k = record.key then some (entryOf settings record m.time.relative)
      else m.map.lookup k := by
  rw [processRecordStore_of_valid m h, lookup_setMapEntry]
  split_ifs <;> simp

theorem time_processRecordStore {record : Store} (h : ValidSize settings record.size) :
    (m.processRecordStore settings record).2.time =
      if settings.trackEstimatedTime then (m.applyTimePoint record.time).time else m.time := by
  rw [processRecordStore_of_valid m h, setMapEntry_time]
  split_ifs <;> rfl

/-! ## Pruning -/

/-- Collecting stale entries only counts the minimal time anew. -/
theorem collectEntries_frame (before : UInt64) (entries : List (Sigma fun _ : Key => Entry))
    (stale : List Key × ℤ) (m : Memory) :
    (m.collectEntries before entries stale).2.map = m.map ∧
      (m.collectEntries before entries stale).2.time = m.time ∧
      (m.collectEntries before entries stale).2.totalSize = m.totalSize ∧
      (m.collectEntries before entries stale).2.taggedStats = m.taggedStats := by
  induction entries generalizing stale m with
  | nil => exact ⟨rfl, rfl, rfl, rfl⟩
  | cons b rest ih =>
    obtain ⟨h₁, h₂, h₃, h₄⟩ := ih (m.collectEntry before b.1 b.2 stale).1
      (m.collectEntry before b.1 b.2 stale).2
    have hentry : (m.collectEntry before b.1 b.2 stale).2.map = m.map ∧
        (m.collectEntry before b.1 b.2 stale).2.time = m.time ∧
        (m.collectEntry before b.1 b.2 stale).2.totalSize = m.totalSize ∧
        (m.collectEntry before b.1 b.2 stale).2.taggedStats = m.taggedStats := by
      unfold collectEntry
      split_ifs <;> exact ⟨rfl, rfl, rfl, rfl⟩
    exact ⟨h₁.trans hentry.1, h₂.trans hentry.2.1, h₃.trans hentry.2.2.1, h₄.trans hentry.2.2.2⟩

variable (settings) in
theorem collectTimeStale_frame (clock : Int32) (m : Memory) :
    (m.collectTimeStale settings clock).2.map = m.map ∧
      (m.collectTimeStale settings clock).2.time = m.time ∧
      (m.collectTimeStale settings clock).2.totalSize = m.totalSize ∧
      (m.collectTimeStale settings clock).2.taggedStats = m.taggedStats := by
  unfold collectTimeStale
  dsimp only
  split_ifs
  · exact ⟨rfl, rfl, rfl, rfl⟩
  · exact ⟨rfl, rfl, rfl, rfl⟩
  · exact collectEntries_frame _ _ _ _

end Memory

end Bettergram.Storage.Cache
