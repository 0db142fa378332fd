import Bettergram.Foundation.TreeMaps
import Bettergram.Storage.Cache.System

/-! # The totals

`updateStats` adds what the new entry is worth and takes off what the old one
was worth, where the default entry is worth nothing. So the totals are the sums
over the map in every state of the system.
-/

namespace Bettergram.Storage.Cache
open Foundation DatabaseObject

namespace Memory

def sizeWorth (e : Entry) : ℤ := e.size
def tagCount (tag : UInt8) (e : Entry) : ℤ := if e.tag = tag then present e else 0
def tagSize (tag : UInt8) (e : Entry) : ℤ := if e.tag = tag then e.size else 0

/-- The totals are the sums over the entries. -/
structure Exact (m : Memory) : Prop where
  total : m.totalSize = mapSum sizeWorth m.map
  count : ∀ tag, tag ≠ 0 → (m.taggedStats tag).count = mapSum (tagCount tag) m.map
  size : ∀ tag, tag ≠ 0 → (m.taggedStats tag).totalSize = mapSum (tagSize tag) m.map

/-- What the totals gain when one entry takes the place of another. -/
structure Gains (was now : Entry) (m m' : Memory) : Prop where
  total : m'.totalSize = m.totalSize + (sizeWorth now - sizeWorth was)
  count : ∀ tag, tag ≠ 0 → (m'.taggedStats tag).count =
    (m.taggedStats tag).count + (tagCount tag now - tagCount tag was)
  size : ∀ tag, tag ≠ 0 → (m'.taggedStats tag).totalSize =
    (m.taggedStats tag).totalSize + (tagSize tag now - tagSize tag was)

theorem modifyTag_taggedStats (tag : UInt8) (count size : ℤ) (m : Memory) (t : UInt8) :
    (m.modifyTag tag count size).taggedStats t =
      if t = tag then ⟨(m.taggedStats t).count + count, (m.taggedStats t).totalSize + size⟩
      else m.taggedStats t := by
  by_cases h : t = tag
  · simp [modifyTag, h]
  · simp [modifyTag, h]

theorem updateStats_gains (was now : Entry) (m : Memory) : Gains was now m (m.updateStats was now) := by
  unfold updateStats
  constructor
  · dsimp only
    split_ifs <;> rfl
  · intro tag htag
    dsimp only
    split_ifs <;> simp only [modifyTag_taggedStats, tagCount] <;> grind
  · intro tag htag
    dsimp only
    split_ifs <;> simp only [modifyTag_taggedStats, tagSize] <;> grind

variable {m m' : Memory}

/-- The default entry stands for none. -/
theorem worthAt_getD {worth : Entry → ℤ} (h : worth {} = 0) (map : EntryMap) (key : Key) :
    worthAt worth map key = worth ((map.lookup key).getD {}) := by
  unfold worthAt
  cases map.lookup key with
  | none => exact h.symm
  | some e => rfl

theorem tagCount_default {tag : UInt8} : tagCount tag {} = 0 := by
  simp [tagCount, present]

theorem tagSize_default {tag : UInt8} : tagSize tag {} = 0 := by
  simp [tagSize]

theorem Exact.insert (h : m.Exact) {key : Key} {entry : Entry}
    (hgains : Gains ((m.map.lookup key).getD {}) entry m m')
    (hmap : m'.map = m.map.insert key entry) : m'.Exact where
  total := by
    rw [hgains.total, h.total, hmap, mapSum_insert, worthAt_getD rfl]
  count tag htag := by
    rw [hgains.count tag htag, h.count tag htag, hmap, mapSum_insert, worthAt_getD tagCount_default]
  size tag htag := by
    rw [hgains.size tag htag, h.size tag htag, hmap, mapSum_insert, worthAt_getD tagSize_default]

theorem Exact.erase (h : m.Exact) {key : Key} {entry : Entry} (hentry : m.map.lookup key = some entry)
    (hgains : Gains entry {} m m') (hmap : m'.map = m.map.erase key) : m'.Exact where
  total := by
    rw [hgains.total, h.total, hmap, mapSum_erase, worthAt, hentry]
    simp only [sizeWorth, Option.map_some, Option.getD_some]
    omega
  count tag htag := by
    rw [hgains.count tag htag, h.count tag htag, hmap, mapSum_erase, worthAt, hentry, tagCount_default]
    simp only [Option.map_some, Option.getD_some]
    omega
  size tag htag := by
    rw [hgains.size tag htag, h.size tag htag, hmap, mapSum_erase, worthAt, hentry, tagSize_default]
    simp only [Option.map_some, Option.getD_some]
    omega

/-- A change that leaves the totals and the worth of the entries alone. -/
theorem Exact.of_same (h : m.Exact) (htotal : m'.totalSize = m.totalSize)
    (hstats : m'.taggedStats = m.taggedStats)
    (hsum : ∀ worth : Entry → ℤ, (∀ e t, worth (e.touched t) = worth e) →
      mapSum worth m'.map = mapSum worth m.map) : m'.Exact where
  total := by rw [htotal, h.total, hsum sizeWorth fun _ _ => rfl]
  count tag htag := by rw [hstats, h.count tag htag, hsum (tagCount tag) fun _ _ => rfl]
  size tag htag := by rw [hstats, h.size tag htag, hsum (tagSize tag) fun _ _ => rfl]

theorem Exact.of_map_eq (h : m.Exact) (htotal : m'.totalSize = m.totalSize)
    (hstats : m'.taggedStats = m.taggedStats) (hmap : m'.map = m.map) : m'.Exact :=
  h.of_same htotal hstats fun worth _ => by rw [hmap]

/-! ## Steps in memory -/

theorem Exact.addExcess (h : m.Exact) (length : ℤ) : (m.addExcess length).Exact :=
  h.of_map_eq rfl rfl rfl

theorem Exact.applyTimePoint (h : m.Exact) (time : EstimatedTimePoint) :
    (m.applyTimePoint time).Exact := by
  obtain ⟨hmap, -, -, htotal, hstats⟩ := m.applyTimePoint_frame time
  exact h.of_map_eq htotal hstats hmap

theorem setMapEntry_gains (tracked : Bool) (key : Key) (entry : Entry) (m : Memory) :
    Gains ((m.map.lookup key).getD {}) entry m (m.setMapEntry tracked key entry) := by
  obtain ⟨htotal, hcount, hsize⟩ := updateStats_gains ((m.map.lookup key).getD {}) entry m
  have hsame : (m.setMapEntry tracked key entry).totalSize =
        (m.updateStats ((m.map.lookup key).getD {}) entry).totalSize ∧
      (m.setMapEntry tracked key entry).taggedStats =
        (m.updateStats ((m.map.lookup key).getD {}) entry).taggedStats := by
    unfold setMapEntry
    dsimp only
    split_ifs <;> simp
  exact ⟨by rw [hsame.1, htotal], fun tag htag => by rw [hsame.2, hcount tag htag],
    fun tag htag => by rw [hsame.2, hsize tag htag]⟩

theorem Exact.setMapEntry (h : m.Exact) (tracked : Bool) (key : Key) (entry : Entry) :
    (m.setMapEntry tracked key entry).Exact :=
  h.insert (setMapEntry_gains tracked key entry m) (setMapEntry_map m tracked key entry)

theorem Exact.eraseMapEntry (h : m.Exact) (key : Key) : (m.eraseMapEntry key).Exact := by
  cases hentry : m.map.lookup key with
  | none =>
    have hsame : m.eraseMapEntry key = m := by
      rw [Memory.eraseMapEntry, hentry]
    rwa [hsame]
  | some entry =>
    obtain ⟨htotal, hcount, hsize⟩ := updateStats_gains entry {} m
    have hsame : (m.eraseMapEntry key).totalSize = (m.updateStats entry {}).totalSize ∧
        (m.eraseMapEntry key).taggedStats = (m.updateStats entry {}).taggedStats := by
      rw [Memory.eraseMapEntry, hentry]
      dsimp only
      split_ifs <;> simp
    exact h.erase hentry ⟨by rw [hsame.1, htotal], fun tag htag => by rw [hsame.2, hcount tag htag],
      fun tag htag => by rw [hsame.2, hsize tag htag]⟩ (eraseMapEntry_map m key)

theorem Exact.setUseTime (h : m.Exact) (relative : UInt64) (key : Key) :
    (m.setUseTime relative key).Exact := by
  obtain ⟨-, htotal, hstats, -⟩ := m.setUseTime_frame relative key
  refine h.of_same htotal hstats fun worth hworth => ?_
  unfold Memory.setUseTime
  cases hentry : m.map.lookup key with
  | none => rfl
  | some e => exact mapSum_insert_same worth hentry (hworth e relative)

variable {settings : Settings}

theorem Exact.processRecordStore (h : m.Exact) (record : Store) :
    (m.processRecordStore settings record).2.Exact := by
  by_cases hvalid : ValidSize settings record.size
  · rw [processRecordStore_of_valid m hvalid]
    split_ifs
    · exact (h.applyTimePoint _).setMapEntry _ _ _
    · exact h.setMapEntry _ _ _
  · rwa [processRecordStore_of_not_valid m hvalid]

/-- A fold of steps that keep the totals exact. -/
theorem Exact.foldl {α : Type} {f : Memory → α → Memory} (hf : ∀ m a, m.Exact → (f m a).Exact)
    (as : List α) (h : m.Exact) : (as.foldl f m).Exact := by
  induction as generalizing m with
  | nil => exact h
  | cons a as ih => exact ih (hf m a h)

theorem Exact.processRecord (h : m.Exact) (r : Record) : (m.processRecord settings r).2.Exact := by
  cases r with
  | store record => exact h.processRecordStore record
  | multiStore parts =>
    rw [Memory.processRecord, processRecordMultiStore_eq]
    exact h.foldl (fun _ part hm => hm.processRecordStore part) _
  | multiRemove keys =>
    exact (h.addExcess 16).foldl (fun _ key hm => (hm.addExcess 16).eraseMapEntry key) keys
  | multiAccess time keys =>
    exact ((h.applyTimePoint time).addExcess 16).foldl
      (fun _ key hm => (hm.addExcess 16).setUseTime time.relative key) keys

theorem Exact.replay (h : m.Exact) (rs : List Record) : (m.replay settings rs).Exact :=
  h.foldl (fun _ r hm => hm.processRecord r) rs

theorem exact_start (head : List UInt8) : (startMemory head).Exact :=
  ⟨rfl, fun _ _ => rfl, fun _ _ => rfl⟩

end Memory

/-! ## Events -/

variable {settings : Settings} {ok : Option ℕ → Prop} {db db' : DatabaseObject}

theorem Event.exact (h : Event settings ok db db') (hexact : db.memory.Exact) : db'.memory.Exact := by
  cases h with
  | store clock record hlimit htime hpos hsize =>
    unfold writeStore
    split
    · exact hexact
    · exact hexact.processRecordStore record
  | unmap hlookup => exact hexact.eraseMapEntry _
  | @removes limits hlimits hne hlen =>
    rw [writeMultiRemove_of_ne limits hne]
    split
    · exact hexact.addExcess _
    · exact hexact
  | accesses clock hlimits htracked hlen =>
    have htime : Memory.Exact { db.memory with time := db.memory.countTimePoint clock } :=
      hexact.of_map_eq rfl rfl rfl
    have htouched := htime.foldl
      (fun _ key hm => hm.setUseTime (db.memory.countTimePoint clock).relative key) db.accessed
    rw [writeMultiAccessBlock_eq]
    dsimp only
    split
    · exact htouched.addExcess _
    · exact htouched
  | collect clock =>
    obtain ⟨hmap, -, htotal, hstats⟩ := db.memory.collectTimeStale_frame settings clock
    exact hexact.of_map_eq htotal hstats hmap
  | rehash order =>
    unfold DatabaseObject.rehash
    split
    · next hperm => exact hexact.of_same rfl rfl fun worth _ => mapSum_perm worth hperm
    · exact hexact
  | _ => exact hexact

/-- The totals are exact after an open. -/
theorem openBinlog_exact {files : DatabaseObject} {folder : List Char} {mode : File.Mode}
    {env : OpenEnv} (hcleared : files.Cleared) (hmode : mode ≠ .read)
    (h : files.openBinlog settings folder mode env = (.success, db)) : db.memory.Exact := by
  obtain ⟨head, fileMode, hvalid, -, rfl⟩ := openBinlog_found hcleared hmode h
  obtain ⟨kept, rest, -, -, hreplay⟩ := replayBinlog_headed settings folder files.disk
    ((files.foundLog mode).drop 16) fileMode hvalid.length
  have hreplayed : ((headed folder files.disk head ((files.foundLog mode).drop 16)
      fileMode).replayBinlog settings).memory.Exact := by
    rw [hreplay]
    exact (Memory.exact_start head).replay _
  unfold readBinlog adjustRelativeTime
  split
  · next hback =>
    have hlen : ((headed folder files.disk head ((files.foundLog mode).drop 16)
        fileMode).replayBinlog settings).accessed.length ≤ settings.maxBundledRecords := by
      rw [hreplay]
      exact Nat.zero_le _
    have hevent : ∀ {ok : Option ℕ → Prop}, (∀ i, ok (env.accessLimits i)) →
        Event settings ok _ _ := fun hok => .accesses env.accessClock hok hback.1 hlen
    have hany : Event settings (fun _ => True) _ _ := hevent fun _ => trivial
    exact hany.exact hreplayed
  · exact hreplayed

/-! ## Every reachable state -/

variable {xxh32 : List UInt8 → UInt32} {good : File.Mode → DatabaseObject → Prop}
  {allowed : System → Act → Prop}

theorem Reachable.exact {s : System} (h : Reachable settings xxh32 good allowed s) :
    s.database.memory.Exact := by
  refine h.event_inv (P := fun db => db.memory.Exact) (fun files hcleared => ?_)
    (fun files db folder mode env hcleared hmode _ hopen => openBinlog_exact hcleared hmode hopen)
    (fun db db' _ hevent hexact => hevent.exact hexact)
    (fun db db' hmemory _ _ _ _ _ hexact => ?_)
  · rw [hcleared.memory.1]
    exact ⟨rfl, fun _ _ => rfl, fun _ _ => rfl⟩
  · obtain ⟨length, hmemory⟩ := hmemory
    rw [hmemory]
    exact hexact.addExcess length

theorem mapSum_tagCount (hsized : db.Sized settings) (tag : UInt8) :
    mapSum (Memory.tagCount tag) db.memory.map =
      db.memory.map.entries.countP fun e => e.2.tag = tag := by
  have hworth : ∀ e ∈ db.memory.map.entries,
      Memory.tagCount tag e.2 = if e.2.tag = tag then 1 else 0 := by
    intro e he
    have hsize : e.2.size ≠ 0 := (hsized (AList.mem_lookup_iff.mpr he)).1
    simp [Memory.tagCount, Memory.present, hsize]
  rw [mapSum, List.map_congr_left hworth]
  induction db.memory.map.entries with
  | nil => rfl
  | cons e es ih =>
    rw [List.map_cons, List.sum_cons, List.countP_cons, ih]
    by_cases h : e.2.tag = tag
    · simp [h, add_comm]
    · simp [h]

theorem mapSum_sizeWorth (map : EntryMap) :
    mapSum Memory.sizeWorth map = ((map.entries.map fun e => e.2.size).sum : ℕ) := by
  unfold mapSum
  induction map.entries with
  | nil => rfl
  | cons e es ih =>
    rw [List.map_cons, List.sum_cons, ih]
    simp [Memory.sizeWorth]

theorem mapSum_tagSize (tag : UInt8) :
    mapSum (Memory.tagSize tag) db.memory.map =
      (((db.memory.map.entries.filter fun e => e.2.tag = tag).map fun e => e.2.size).sum : ℕ) := by
  unfold mapSum
  induction db.memory.map.entries with
  | nil => rfl
  | cons e es ih =>
    rw [List.map_cons, List.sum_cons, ih]
    by_cases h : e.2.tag = tag <;> simp [Memory.tagSize, h]

/-- The totals of every reachable state are what the entries sum up to; sums of sizes and numbers
of entries are never negative. -/
theorem statistics_exact {s : System} (h : Reachable settings xxh32 (fun _ _ => True)
    (fun _ _ => True) s) :
    let entries := s.database.memory.map.entries
    s.database.memory.totalSize = ((entries.map fun e => e.2.size).sum : ℕ) ∧
      ∀ tag, tag ≠ 0 →
        (s.database.memory.taggedStats tag).count = (entries.countP fun e => e.2.tag = tag : ℕ) ∧
        (s.database.memory.taggedStats tag).totalSize =
          (((entries.filter fun e => e.2.tag = tag).map fun e => e.2.size).sum : ℕ) := by
  intro entries
  refine ⟨?_, fun tag htag => ⟨?_, ?_⟩⟩
  · rw [h.exact.total, mapSum_sizeWorth]
  · rw [h.exact.count tag htag, mapSum_tagCount h.steady.2]
  · rw [h.exact.size tag htag, mapSum_tagSize]

set_option maxRecDepth 10000 in
/-- The totals of three entries that were just read. -/
theorem statistics_exact_storedThree :
    let db := ((sampleLog storedThree []).openBinlog .initial [] .readAppend (.granted 200)).2
    let entries := db.memory.map.entries
    db.memory.totalSize = ((entries.map fun e => e.2.size).sum : ℕ) ∧
      ∀ tag, tag ≠ 0 →
        (db.memory.taggedStats tag).count = (entries.countP fun e => e.2.tag = tag : ℕ) ∧
        (db.memory.taggedStats tag).totalSize =
          (((entries.filter fun e => e.2.tag = tag).map fun e => e.2.size).sum : ℕ) :=
  statistics_exact (show Reachable _ (fun _ => 0) _ _ { database := _ } from
    .opened (show (sampleLog storedThree []).Cleared from rfl) (by decide) trivial
      (Prod.ext (by decide) rfl))

end Bettergram.Storage.Cache
