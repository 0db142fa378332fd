import Bettergram.Foundation.KeyLog
import Bettergram.Storage.Cache.LogCodec
import Bettergram.Storage.Cache.Memory
import Mathlib.Data.List.TakeWhile

/-! # What a log means

For a single key the records of a log set, erase and touch an entry, and the
map that processing the records builds is what these operations leave for each
key. A refused record takes part as far as its leading good parts go.
-/

namespace Bettergram.Storage.Cache
open Foundation

def Entry.touched (relative : UInt64) (e : Entry) : Entry := { e with useTime := relative }

theorem Entry.touched_touched (s t : UInt64) (e : Entry) :
    Entry.touched t (Entry.touched s e) = Entry.touched t e := rfl

abbrev EntryOp := KeyOp UInt64 Entry

variable (settings : Settings)

namespace Record

def stores : Record → List Store
  | store part => [part]
  | multiStore parts => parts
  | _ => []

def Accepted (r : Record) : Bool := r.stores.all fun part => Memory.ValidSize settings part.size

/-- The parts in front of the first one the handler refuses. -/
def goodParts (r : Record) : List Store :=
  r.stores.takeWhile fun part => Memory.ValidSize settings part.size

/-- Access blocks are only read when time is tracked. -/
def Readable : Record → Prop
  | multiAccess _ _ => settings.trackEstimatedTime = true
  | _ => True

end Record

/-- `relative` is the time of entries when time is not tracked. -/
def storeOps (relative : UInt64) (key : Key) (parts : List Store) : List EntryOp :=
  (parts.filter (·.key = key)).map fun part => .set (Memory.entryOf settings part relative)

def Record.opsAt (relative : UInt64) (key : Key) (r : Record) : List EntryOp :=
  match r with
  | multiRemove keys => if key ∈ keys then [.erase] else []
  | multiAccess time keys => if key ∈ keys then [.touch time.relative] else []
  | _ => storeOps settings relative key (r.goodParts settings)

def logOps (relative : UInt64) (key : Key) (rs : List Record) : List EntryOp :=
  rs.flatMap (Record.opsAt settings relative key)

/-- The entry of a key after a log. -/
def logEntry (relative : UInt64) (rs : List Record) (key : Key) : Option Entry :=
  replayKey Entry.touched (logOps settings relative key rs) none

theorem logOps_append (relative : UInt64) (key : Key) (rs ts : List Record) :
    logOps settings relative key (rs ++ ts) =
      logOps settings relative key rs ++ logOps settings relative key ts :=
  List.flatMap_append

theorem logEntry_append (relative : UInt64) (rs ts : List Record) (key : Key) :
    logEntry settings relative (rs ++ ts) key =
      replayKey Entry.touched (logOps settings relative key ts)
        (logEntry settings relative rs key) := by
  rw [logEntry, logOps_append, replayKey_append]
  rfl

/-- The last of some parts is the one that counts. -/
theorem replayKey_storeOps (relative : UInt64) (key : Key) (parts : List Store)
    (x : Option Entry) :
    replayKey Entry.touched (storeOps settings relative key parts) x =
      ((parts.filter (·.key = key)).getLast?).elim x
        fun part => some (Memory.entryOf settings part relative) := by
  unfold storeOps
  induction parts.filter (·.key = key) using List.reverseRecOn with
  | nil => rfl
  | append_singleton parts part ih =>
    rw [List.map_append, replayKey_append]
    simp [KeyOp.apply]

namespace Memory

/-- Without tracking the clock never moves. -/
def AtTime (relative : UInt64) (m : Memory) : Prop :=
  settings.trackEstimatedTime = false → m.time.relative = relative

variable {settings} {m : Memory} {relative : UInt64}

theorem AtTime.entryOf_eq (h : m.AtTime settings relative) (part : Store) :
    entryOf settings part m.time.relative = entryOf settings part relative := by
  unfold entryOf
  cases htracked : settings.trackEstimatedTime with
  | true => rfl
  | false => rw [h htracked]

theorem AtTime.processRecordStore (h : m.AtTime settings relative) (part : Store) :
    (m.processRecordStore settings part).2.AtTime settings relative := by
  intro htracked
  by_cases hvalid : ValidSize settings part.size
  · rw [time_processRecordStore m hvalid, htracked]
    exact h htracked
  · rw [processRecordStore_of_not_valid m hvalid]
    exact h htracked

/-- The parts of a `MultiStore` are applied up to the first bad one. -/
theorem processRecordMultiStore_eq (parts : List Store) (m : Memory) :
    m.processRecordMultiStore settings parts =
      (parts.all fun part => ValidSize settings part.size,
        (parts.takeWhile fun part => ValidSize settings part.size).foldl
          (fun m part => (m.processRecordStore settings part).2) m) := by
  induction parts generalizing m with
  | nil => rfl
  | cons part parts ih =>
    by_cases hvalid : ValidSize settings part.size
    · have hstore := processRecordStore_of_valid m hvalid
      rw [List.takeWhile_cons_of_pos (by simpa using hvalid), List.foldl_cons]
      simp only [processRecordMultiStore, hstore, ih, List.all_cons, hvalid, decide_true,
        Bool.true_and]
    · rw [List.takeWhile_cons_of_neg (by simpa using hvalid)]
      simp [processRecordMultiStore, processRecordStore_of_not_valid m hvalid, hvalid]

theorem lookup_foldl_processRecordStore {parts : List Store}
    (hvalid : ∀ part ∈ parts, ValidSize settings part.size) (h : m.AtTime settings relative)
    (key : Key) :
    let after := parts.foldl (fun m part => (m.processRecordStore settings part).2) m
    after.map.lookup key =
      replayKey Entry.touched (storeOps settings relative key parts) (m.map.lookup key) ∧
    after.AtTime settings relative := by
  induction parts generalizing m with
  | nil => exact ⟨rfl, h⟩
  | cons part parts ih =>
    obtain ⟨ihlookup, ihtime⟩ := ih (fun p hp => hvalid p (by simp [hp])) (h.processRecordStore part)
    refine ⟨?_, ihtime⟩
    have hpart := lookup_processRecordStore m (hvalid part (by simp)) key
    rw [List.foldl_cons, ihlookup, hpart, h.entryOf_eq]
    by_cases hkey : key = part.key
    · simp [storeOps, hkey, KeyOp.apply]
    · simp [storeOps, hkey, Ne.symm hkey]

theorem foldl_eraseMapEntry (keys : List Key) (m : Memory) (key : Key) :
    let after := keys.foldl (fun m key => (m.addExcess 16).eraseMapEntry key) m
    after.map.lookup key = (if key ∈ keys then none else m.map.lookup key) ∧
      after.time = m.time := by
  induction keys generalizing m with
  | nil => simp
  | cons first keys ih =>
    obtain ⟨ihlookup, ihtime⟩ := ih ((m.addExcess 16).eraseMapEntry first)
    refine ⟨?_, ?_⟩
    · rw [List.foldl_cons, ihlookup, lookup_eraseMapEntry]
      by_cases hkey : key = first <;> by_cases hmem : key ∈ keys <;> simp [hkey, hmem]
    · rw [List.foldl_cons, ihtime]
      simp

theorem foldl_setUseTime_addExcess (time : UInt64) (keys : List Key) (m : Memory) (key : Key) :
    let after := keys.foldl (fun m key => (m.addExcess 16).setUseTime time key) m
    after.map.lookup key =
      (if key ∈ keys then (m.map.lookup key).map (Entry.touched time) else m.map.lookup key) ∧
      after.time = m.time := by
  induction keys generalizing m with
  | nil => simp
  | cons first keys ih =>
    obtain ⟨ihlookup, ihtime⟩ := ih ((m.addExcess 16).setUseTime time first)
    refine ⟨?_, ?_⟩
    · rw [List.foldl_cons, ihlookup, lookup_setUseTime]
      by_cases hkey : key = first
      · subst hkey
        cases hentry : m.map.lookup key <;> simp [hentry, Entry.touched]
      · simp [hkey]
    · rw [List.foldl_cons, ihtime]
      simp

/-- A record, accepted or not, acts on each key as `opsAt` says. -/
theorem lookup_processRecord {r : Record} (hr : r.Readable settings)
    (h : m.AtTime settings relative) (key : Key) :
    (m.processRecord settings r).2.map.lookup key =
        replayKey Entry.touched (r.opsAt settings relative key) (m.map.lookup key) ∧
      (m.processRecord settings r).2.AtTime settings relative := by
  have hgood : ∀ part ∈ r.goodParts settings, ValidSize settings part.size := fun part hpart => by
    simpa using List.mem_takeWhile_imp hpart
  cases r with
  | store part =>
    have hfold := lookup_foldl_processRecordStore hgood h key
    by_cases hvalid : ValidSize settings part.size
    · simpa [Record.goodParts, Record.stores, hvalid, Record.opsAt, processRecord] using hfold
    · simpa [Record.goodParts, Record.stores, hvalid, Record.opsAt, processRecord,
        processRecordStore_of_not_valid m hvalid] using hfold
  | multiStore parts =>
    rw [processRecord, processRecordMultiStore_eq]
    exact lookup_foldl_processRecordStore hgood h key
  | multiRemove keys =>
    obtain ⟨hlookup, htime⟩ := foldl_eraseMapEntry keys (m.addExcess 16) key
    refine ⟨?_, fun htracked => ?_⟩
    · rw [processRecord, processRecordMultiRemove, hlookup, Record.opsAt]
      split <;> simp [KeyOp.apply]
    · rw [processRecord, processRecordMultiRemove, htime]
      exact h htracked
  | multiAccess time keys =>
    obtain ⟨hlookup, -⟩ := foldl_setUseTime_addExcess time.relative keys
      ((m.applyTimePoint time).addExcess 16) key
    refine ⟨?_, fun htracked => absurd hr (by simp [Record.Readable, htracked])⟩
    rw [processRecord, processRecordMultiAccess, hlookup, Record.opsAt]
    split <;> simp [KeyOp.apply]

theorem processRecord_fst (r : Record) (m : Memory) :
    (m.processRecord settings r).1 = r.Accepted settings := by
  cases r with
  | store part =>
    by_cases hvalid : ValidSize settings part.size
    · simp [processRecord, processRecordStore_of_valid m hvalid, Record.Accepted, Record.stores,
        hvalid]
    · simp [processRecord, processRecordStore_of_not_valid m hvalid, Record.Accepted,
        Record.stores, hvalid]
  | multiStore parts => rw [processRecord, processRecordMultiStore_eq]; rfl
  | multiRemove keys => rfl
  | multiAccess time keys => rfl

variable (settings) in
/-- The memory after all of some records. -/
def replay (rs : List Record) (m : Memory) : Memory :=
  rs.foldl (fun m r => (m.processRecord settings r).2) m

theorem lookup_replay {rs : List Record} (hrs : ∀ r ∈ rs, r.Readable settings)
    (h : m.AtTime settings relative) (key : Key) :
    (m.replay settings rs).map.lookup key =
        replayKey Entry.touched (logOps settings relative key rs) (m.map.lookup key) ∧
      (m.replay settings rs).AtTime settings relative := by
  induction rs generalizing m with
  | nil => exact ⟨rfl, h⟩
  | cons r rs ih =>
    obtain ⟨hlookup, htime⟩ := lookup_processRecord (hrs r (by simp)) h key
    obtain ⟨ihlookup, ihtime⟩ := ih (fun t ht => hrs t (by simp [ht])) htime
    refine ⟨?_, ihtime⟩
    change ((m.processRecord settings r).2.replay settings rs).map.lookup key = _
    rw [ihlookup, hlookup, ← replayKey_append]
    rfl

end Memory

/-! ## The records that a reader applies -/

def acceptedRecords (rs : List Record) : List Record := rs.takeWhile (Record.Accepted settings)

/-- The record at which the reader stops. -/
def refusedRecord (rs : List Record) : Option Record :=
  (rs.dropWhile (Record.Accepted settings)).head?

variable {settings}

theorem acceptedRecords_of_all {rs : List Record} (h : ∀ r ∈ rs, r.Accepted settings = true)
    (ts : List Record) :
    acceptedRecords settings (rs ++ ts) = rs ++ acceptedRecords settings ts ∧
      refusedRecord settings (rs ++ ts) = refusedRecord settings ts := by
  unfold acceptedRecords refusedRecord
  rw [List.takeWhile_append_of_pos h, List.dropWhile_append_of_pos h]
  exact ⟨rfl, rfl⟩

variable (settings) in
/-- What is read from a list of records: the memory, and the records taken off it. -/
theorem feed_processRecord (rs : List Record) (m : Memory) :
    feed (fun r m => m.processRecord settings r) rs m =
      (m.replay settings (acceptedRecords settings rs ++ (refusedRecord settings rs).toList),
        acceptedRecords settings rs) := by
  rw [feed_eq (p := Record.Accepted settings) (fun r m => Memory.processRecord_fst r m)]
  unfold Memory.replay acceptedRecords refusedRecord
  cases (rs.dropWhile (Record.Accepted settings)).head? with
  | none => simp
  | some r => simp [List.foldl_append]

/-- The same for the bytes of the records. -/
theorem feed_handleRecord (bs : List (List UInt8)) (m : Memory) :
    let rs := bs.map (Record.decode settings.trackEstimatedTime)
    feed (fun bytes m => m.handleRecord settings bytes) bs m =
      (m.replay settings (acceptedRecords settings rs ++ (refusedRecord settings rs).toList),
        bs.take (acceptedRecords settings rs).length) := by
  intro rs
  have hfeed := feed_processRecord settings rs m
  rw [feed_map] at hfeed
  obtain ⟨hstate, hrecords⟩ := Prod.mk.inj hfeed
  refine Prod.ext hstate ?_
  have hstartsWith : (feed (fun bytes (m : Memory) => m.handleRecord settings bytes) bs m).2 <+: bs :=
    feed_isPrefix bs m
  have hlen := congrArg List.length hrecords
  rw [List.length_map] at hlen
  exact (List.prefix_iff_eq_take.mp hstartsWith).trans (by rw [← hlen]; rfl)

/-- A key that has an entry was stored by some part of the log. -/
theorem exists_store_of_logEntry {relative : UInt64} {rs : List Record} {key : Key} {e : Entry}
    (h : logEntry settings relative rs key = some e) :
    ∃ r ∈ rs, ∃ part ∈ r.goodParts settings, part.key = key ∧ part.tag = e.tag ∧
      part.size = e.size ∧ part.checksum = e.checksum ∧ part.place = e.place := by
  obtain ⟨start, times, hmem, rfl⟩ := replayKey_eq_some h
  have hfold : ∀ times : List UInt64, let e := times.foldl (fun v t => Entry.touched t v) start
      e.tag = start.tag ∧ e.size = start.size ∧ e.checksum = start.checksum ∧
        e.place = start.place := by
    intro times
    induction times using List.reverseRecOn with
    | nil => exact ⟨rfl, rfl, rfl, rfl⟩
    | append_singleton times time ih => rw [List.foldl_append]; exact ih
  obtain ⟨r, hr, hop⟩ := List.mem_flatMap.mp hmem
  have hset : KeyOp.set start ∈ storeOps settings relative key (r.goodParts settings) := by
    cases r with
    | store part => exact hop
    | multiStore parts => exact hop
    | multiRemove keys =>
      rw [Record.opsAt] at hop
      split at hop <;> simp at hop
    | multiAccess time keys =>
      rw [Record.opsAt] at hop
      split at hop <;> simp at hop
  obtain ⟨part, hpart, heq⟩ := List.mem_map.mp hset
  rw [List.mem_filter] at hpart
  obtain ⟨h₁, h₂, h₃, h₄⟩ := hfold times
  cases heq
  exact ⟨r, hr, part, hpart.1, by simpa using hpart.2, h₁.symm, h₂.symm, h₃.symm, h₄.symm⟩

end Bettergram.Storage.Cache
