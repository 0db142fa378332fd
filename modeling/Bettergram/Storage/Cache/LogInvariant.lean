import Bettergram.Storage.Cache.CallEvents
import Bettergram.Storage.Cache.Opening

/-! # The log under the calls

Whatever the calls do, the log stays a header, accepted records and a rest, and
every event appends the records it stands for. While the log is open the map is
what the records say, less the keys whose removal has not been written yet.
-/

namespace Bettergram.Storage.Cache
open Foundation

variable (settings : Settings)

/-- A log file with the records `rs`; an open file writes next behind them. -/
structure Kept (head kept rest : List UInt8) (rs : List Record) (binlog : PlainFile) : Prop where
  data : binlog.data = head ++ kept ++ rest
  header : ValidHead settings head
  log : IsLog settings kept rs
  cursor : binlog.mode.isSome = true → binlog.cursor = 16 + kept.length

/-- The map is what the records say of the keys that are not to be removed. -/
structure Refines (head : List UInt8) (rs : List Record) (db : DatabaseObject) : Prop where
  time : db.memory.AtTime settings (startTime head).relative
  entry : ∀ key, db.memory.map.lookup key =
    if key ∈ db.removing then none else logEntry settings (startTime head).relative rs key

/-- Every entry was stored by some part of the log. -/
def Stored (rs : List Record) (db : DatabaseObject) : Prop :=
  ∀ key e, db.memory.map.lookup key = some e → ∃ r ∈ rs, ∃ part ∈ r.stores,
    part.key = key ∧ part.tag = e.tag ∧ part.size = e.size ∧ part.checksum = e.checksum

variable {settings} {head kept rest : List UInt8} {rs : List Record}

theorem Kept.append {binlog : PlainFile} (h : Kept settings head kept rest rs binlog) {r : Record}
    (hfits : r.Fits settings) (hacc : r.Accepted settings = true) (mode : Option OpenMode) :
    Kept settings head (kept ++ r.encode settings.trackEstimatedTime)
      (rest.drop (r.encode settings.trackEstimatedTime).length) (rs ++ [r])
      { data := overwrite binlog.data (16 + kept.length) (r.encode settings.trackEstimatedTime)
        cursor := 16 + kept.length + (r.encode settings.trackEstimatedTime).length
        mode := mode } where
  data := by
    have hlen : 16 + kept.length = (head ++ kept).length := by
      rw [List.length_append, h.header.length]
    rw [h.data, hlen, overwrite_append, ← List.append_assoc]
  header := h.header
  log := h.log.append (.encode hfits hacc)
  cursor _ := by rw [List.length_append, Nat.add_assoc]

/-- Bytes that were not accepted in full are part of the rest. -/
theorem Kept.fail {binlog : PlainFile} (h : Kept settings head kept rest rs binlog)
    (bytes : List UInt8) :
    ∃ rest', Kept settings head kept rest' rs
      { data := overwrite binlog.data (16 + kept.length) bytes, cursor := 0, mode := none } := by
  refine ⟨bytes ++ rest.drop bytes.length, ?_, h.header, h.log, by simp⟩
  have hlen : 16 + kept.length = (head ++ kept).length := by
    rw [List.length_append, h.header.length]
  dsimp only
  rw [h.data, hlen, overwrite_append, List.append_assoc (head ++ kept)]

theorem Kept.close {binlog : PlainFile} (h : Kept settings head kept rest rs binlog) :
    Kept settings head kept rest rs binlog.close :=
  ⟨h.data, h.header, h.log, by simp [PlainFile.close]⟩

/-- A record that is written in one piece. -/
theorem Kept.writeOpen {binlog : PlainFile} (h : Kept settings head kept rest rs binlog) {r : Record}
    (hfits : r.Fits settings) (hacc : r.Accepted settings = true) (limit : Option ℕ) :
    let bytes := r.encode settings.trackEstimatedTime
    (∃ p, binlog.writeOpen limit bytes = (true, p) ∧ binlog.mode.isSome = true ∧
      p.mode = binlog.mode ∧
      Kept settings head (kept ++ bytes) (rest.drop bytes.length) (rs ++ [r]) p) ∨
    ∃ p rest', binlog.writeOpen limit bytes = (false, p) ∧
      Kept settings head kept rest' rs p.close := by
  intro bytes
  rcases PlainFile.writeOpen_cases limit bytes binlog with ⟨hopen, heq⟩ | ⟨count, hcount, heq⟩
  · refine .inl ⟨_, heq, hopen, rfl, ?_⟩
    rw [h.cursor hopen]
    exact h.append hfits hacc _
  · rcases hcount with hopen | rfl
    · obtain ⟨rest', hkept⟩ := h.fail (bytes.take count)
      refine .inr ⟨_, rest', heq, ?_⟩
      rw [h.cursor hopen]
      exact hkept
    · refine .inr ⟨_, rest, heq, ?_⟩
      rw [List.take_zero, overwrite_nil]
      exact h.close

/-- A record that is written as a header and a list. -/
theorem Kept.writeBinlog {binlog : PlainFile} (h : Kept settings head kept rest rs binlog)
    {r : Record} (hfits : r.Fits settings) (hacc : r.Accepted settings = true)
    (limits : Fin 2 → Option ℕ) {header list : List UInt8}
    (hbytes : r.encode settings.trackEstimatedTime = header ++ list) :
    (∃ p, DatabaseObject.writeBinlog limits header list binlog = (true, p) ∧
      binlog.mode.isSome = true ∧ p.mode = binlog.mode ∧
      Kept settings head (kept ++ (header ++ list)) (rest.drop (header ++ list).length)
        (rs ++ [r]) p) ∨
    ∃ p rest', DatabaseObject.writeBinlog limits header list binlog = (false, p) ∧
      Kept settings head kept rest' rs p.close := by
  have hlen : 16 + kept.length = (head ++ kept).length := by
    rw [List.length_append, h.header.length]
  have hle : 16 + kept.length ≤ binlog.data.length := by
    have hheader := h.header.length
    simp only [h.data, List.length_append]
    omega
  unfold DatabaseObject.writeBinlog
  rcases PlainFile.writeOpen_cases (limits 0) header binlog with ⟨hopen, heq⟩ | ⟨count, hcount, heq⟩
  · rw [heq]
    have hcursor := h.cursor hopen
    have hfull := h.append hfits hacc binlog.mode
    rw [hbytes] at hfull
    dsimp only
    split
    · next hnil =>
      subst hnil
      refine .inl ⟨_, rfl, hopen, rfl, ?_⟩
      rw [List.append_nil] at hfull ⊢
      rw [hcursor]
      exact hfull
    · rcases PlainFile.writeOpen_cases (limits 1) list { binlog with
        data := overwrite binlog.data binlog.cursor header
        cursor := binlog.cursor + header.length } with ⟨-, heq'⟩ | ⟨count, -, heq'⟩
      · refine .inl ⟨_, heq', hopen, rfl, ?_⟩
        dsimp only
        rw [hcursor, overwrite_overwrite _ _ _ hle, Nat.add_assoc, ← List.length_append]
        exact hfull
      · obtain ⟨rest', hkept⟩ := h.fail (header ++ list.take count)
        refine .inr ⟨_, rest', heq', ?_⟩
        dsimp only
        rw [hcursor, overwrite_overwrite _ _ _ hle]
        exact hkept
  · rw [heq]
    dsimp only
    rcases hcount with hopen | rfl
    · obtain ⟨rest', hkept⟩ := h.fail (header.take count)
      refine .inr ⟨_, rest', rfl, ?_⟩
      rw [h.cursor hopen]
      exact hkept
    · refine .inr ⟨_, rest, rfl, ?_⟩
      rw [List.take_zero, overwrite_nil]
      exact h.close

/-! ## Events -/

open DatabaseObject

variable {ok : Option ℕ → Prop} {db db' : DatabaseObject}

theorem recordTime_untracked {clock : Int32} {time : EstimatedTimePoint}
    (htracked : settings.trackEstimatedTime = false)
    (h : db.recordTime settings clock = some time) : time = {} := by
  simpa [recordTime, htracked, eq_comm] using h

/-- What an event leaves of the log invariants. -/
structure Logs (settings : Settings) (head kept rest : List UInt8) (rs : List Record)
    (db db' : DatabaseObject) (new : List Record) (bytes rest' : List UInt8) : Prop where
  log : Kept settings head (kept ++ bytes) rest' (rs ++ new) db'.binlog
  stored : Stored rs db → Stored (rs ++ new) db'
  mode : db'.binlog.mode.isSome = true → db'.binlog.mode = db.binlog.mode
  rest : db'.binlog.mode.isSome = true → rest' = rest.drop bytes.length
  encoded : bytes = encodeLog settings new
  fits : ∀ r ∈ new, r.Fits settings
  refines : db'.binlog.mode.isSome = true → Refines settings head rs db →
    Refines settings head (rs ++ new) db'

/-- An event that does not touch the log. -/
theorem Logs.of_same (hkept : Kept settings head kept rest rs db.binlog)
    (hbinlog : db'.binlog = db.binlog)
    (hentry : ∀ key e, db'.memory.map.lookup key = some e → db.memory.map.lookup key = some e)
    (hrefines : Refines settings head rs db → Refines settings head rs db') :
    Logs settings head kept rest rs db db' [] [] rest where
  log := by rw [List.append_nil, List.append_nil, hbinlog]; exact hkept
  stored h key e he := by rw [List.append_nil]; exact h key e (hentry key e he)
  mode _ := by rw [hbinlog]
  rest _ := rfl
  encoded := rfl
  fits := by simp
  refines _ h := by rw [List.append_nil]; exact hrefines h

/-- An event whose write to the log fails. -/
theorem Logs.of_failed {rest' : List UInt8} (hkept : Kept settings head kept rest' rs db'.binlog)
    (hclosed : db'.binlog.mode = none)
    (hstored : Stored rs db → Stored rs db') :
    Logs settings head kept rest rs db db' [] [] rest' where
  log := by rwa [List.append_nil, List.append_nil]
  stored h := by rw [List.append_nil]; exact hstored h
  mode h := by simp [hclosed] at h
  rest h := by simp [hclosed] at h
  encoded := rfl
  fits := by simp
  refines h := by simp [hclosed] at h

theorem Stored.mono {ts : List Record} (h : Stored rs db) : Stored (rs ++ ts) db := by
  intro key e he
  obtain ⟨r, hr, part, hpart⟩ := h key e he
  exact ⟨r, by simp [hr], part, hpart⟩

/-- Another `useTime` is the same entry to the log. -/
theorem Stored.of_touched (h : Stored rs db)
    (hentry : ∀ key e', db'.memory.map.lookup key = some e' →
      ∃ e, db.memory.map.lookup key = some e ∧ e'.tag = e.tag ∧ e'.size = e.size ∧
        e'.checksum = e.checksum) : Stored rs db' := by
  intro key e' he'
  obtain ⟨e, he, htag, hsize, hsum⟩ := hentry key e' he'
  rw [htag, hsize, hsum]
  exact h key e he

theorem store_logs {clock : Int32} {limit : Option ℕ} {record : Store}
    (htime : db.recordTime settings clock = some record.time) (hpos : record.size ≠ 0)
    (hsize : record.size ≤ settings.maxDataSize)
    (hkept : Kept settings head kept rest rs db.binlog) :
    ∃ new bytes rest', Logs settings head kept rest rs db
      ((db.forget record.key).writeStore settings limit record).2 new bytes rest' := by
  have hvalid : Memory.ValidSize settings record.size := ⟨hpos, hsize⟩
  have hlt := settings.maxDataSize_lt
  have hfits : (Record.store record).Fits settings :=
    ⟨by omega, fun htracked => recordTime_untracked htracked htime⟩
  have hacc : (Record.store record).Accepted settings = true := by
    simp [Record.Accepted, Record.stores, hvalid]
  have hbinlog : (db.forget record.key).binlog = db.binlog := rfl
  unfold writeStore
  rcases hkept.writeOpen hfits hacc limit with ⟨p, heq, hopen, hmode, hlog⟩ | ⟨p, rest', heq, hlog⟩
  · rw [hbinlog]
    change (db.binlog.writeOpen limit (record.encode settings.trackEstimatedTime)) = _ at heq
    rw [heq]
    refine ⟨[.store record], record.encode settings.trackEstimatedTime, _, {
      log := hlog
      stored := fun h key e he => ?_
      mode := fun _ => hmode
      rest := fun _ => rfl
      encoded := by simp [encodeLog, Record.encode]
      fits := by simpa using hfits
      refines := fun _ h => ?_ }⟩
    · dsimp only [forget] at he
      rw [Memory.lookup_processRecordStore _ hvalid] at he
      split at he
      · next hkey =>
        cases he
        exact ⟨.store record, by simp, record, by simp [Record.stores], hkey.symm, rfl, rfl, rfl⟩
      · exact h.mono key e he
    · refine ⟨h.time.processRecordStore record, fun key => ?_⟩
      have hop : (Record.store record).opsAt settings (startTime head).relative key =
          storeOps settings (startTime head).relative key [record] := by
        simp [Record.opsAt, Record.goodParts, Record.stores, hvalid]
      dsimp only [forget]
      rw [Memory.lookup_processRecordStore _ hvalid, h.time.entryOf_eq, logEntry_append, logOps,
        List.flatMap_singleton, hop, h.entry key]
      by_cases hkey : key = record.key
      · simp [storeOps, hkey, KeyOp.apply]
      · simp [storeOps, hkey, Ne.symm hkey]
  · rw [hbinlog]
    change (db.binlog.writeOpen limit (record.encode settings.trackEstimatedTime)) = _ at heq
    rw [heq]
    exact ⟨[], [], rest', .of_failed hlog rfl fun h => h⟩

theorem writeMultiRemove_logs {limits : Fin 2 → Option ℕ} (hne : db.removing ≠ [])
    (hlen : db.removing.length ≤ settings.maxBundledRecords)
    (hkept : Kept settings head kept rest rs db.binlog) :
    ∃ new bytes rest', Logs settings head kept rest rs db (db.writeMultiRemove limits).2 new bytes
      rest' := by
  have hfits : (Record.multiRemove db.removing).Fits settings := ⟨hne, hlen⟩
  have hbytes : (Record.multiRemove db.removing).encode settings.trackEstimatedTime =
      Record.multiHead 0x03 db.removing.length (leBytes 12 0) ++ db.removing.flatMap Key.encode := rfl
  rw [writeMultiRemove_of_ne limits hne]
  rcases hkept.writeBinlog hfits rfl limits hbytes with ⟨p, heq, hopen, hmode, hlog⟩ |
    ⟨p, rest', heq, hlog⟩
  · rw [heq, if_pos rfl]
    refine ⟨[.multiRemove db.removing], _, _, {
      log := hlog
      stored := fun h => h.mono
      mode := fun _ => hmode
      rest := fun _ => rfl
      encoded := by rw [← hbytes]; simp [encodeLog]
      fits := by simpa using hfits
      refines := fun _ h => ⟨h.time, fun key => ?_⟩ }⟩
    change db.memory.map.lookup key = if key ∈ ([] : List Key) then none else _
    rw [logEntry_append, logOps, List.flatMap_singleton, h.entry key, Record.opsAt,
      if_neg List.not_mem_nil]
    split <;> simp [KeyOp.apply]
  · rw [heq, if_neg (by simp)]
    exact ⟨[], [], rest', .of_failed hlog rfl fun h => h⟩

theorem lookup_accesses (time : EstimatedTimePoint) (keys : List Key) (m : Memory) (key : Key) :
    (keys.foldl (fun (m : Memory) key => m.setUseTime time.relative key) { m with time }).map.lookup
        key =
      if key ∈ keys then (m.map.lookup key).map (Entry.touched time.relative)
      else m.map.lookup key :=
  Memory.lookup_foldl_setUseTime _ _ _ _

theorem writeMultiAccessBlock_logs (limits : Fin 2 → Option ℕ) (clock : Int32)
    (htracked : settings.trackEstimatedTime = true)
    (hlen : db.accessed.length ≤ settings.maxBundledRecords)
    (hkept : Kept settings head kept rest rs db.binlog) :
    ∃ new bytes rest', Logs settings head kept rest rs db
        (db.writeMultiAccessBlock limits clock).2 new bytes rest' ∧
      (new = [] ∨ new = [.multiAccess (db.memory.countTimePoint clock) db.accessed]) := by
  set time := db.memory.countTimePoint clock with htime
  have hfits : (Record.multiAccess time db.accessed).Fits settings := ⟨htracked, hlen⟩
  have hbytes : (Record.multiAccess time db.accessed).encode settings.trackEstimatedTime =
      Record.multiHead 0x04 db.accessed.length time.encode ++ db.accessed.flatMap Key.encode := rfl
  have hstored : ∀ {db' : DatabaseObject}, (∀ key, db'.memory.map.lookup key =
      if key ∈ db.accessed then (db.memory.map.lookup key).map (Entry.touched time.relative)
      else db.memory.map.lookup key) → Stored rs db → Stored rs db' := by
    intro db' hlookup h
    refine h.of_touched fun key e' he' => ?_
    rw [hlookup] at he'
    split at he'
    · obtain ⟨e, he, rfl⟩ := Option.map_eq_some_iff.mp he'
      exact ⟨e, he, rfl, rfl, rfl⟩
    · exact ⟨e', he', rfl, rfl, rfl⟩
  rw [writeMultiAccessBlock_eq]
  dsimp only
  rw [← htime]
  rcases hkept.writeBinlog hfits rfl limits hbytes with ⟨p, heq, hopen, hmode, hlog⟩ |
    ⟨p, rest', heq, hlog⟩
  · rw [heq, if_pos rfl]
    refine ⟨[.multiAccess time db.accessed], _, _, {
      log := hlog
      stored := fun h => (hstored (fun key => lookup_accesses time db.accessed db.memory key) h).mono
      mode := fun _ => hmode
      rest := fun _ => rfl
      encoded := by rw [← hbytes]; simp [encodeLog]
      fits := by simpa using hfits
      refines := fun _ h => ⟨fun huntracked => by simp [huntracked] at htracked, fun key => ?_⟩ },
      .inr rfl⟩
    have hlookup := lookup_accesses time db.accessed db.memory key
    rw [h.entry key] at hlookup
    dsimp only [Memory.addExcess]
    rw [hlookup, logEntry_append, logOps, List.flatMap_singleton, Record.opsAt]
    by_cases hremoving : key ∈ db.removing
    · simp [hremoving]
    · by_cases hkey : key ∈ db.accessed <;> simp [hremoving, hkey, KeyOp.apply]
  · rw [heq, if_neg (by simp)]
    exact ⟨[], [], rest', .of_failed hlog rfl
      (hstored fun key => lookup_accesses time db.accessed db.memory key), .inl rfl⟩

/-- Every event appends the records it stands for, or ends the log. -/
theorem Event.logs (h : Event settings ok db db')
    (hkept : Kept settings head kept rest rs db.binlog) :
    ∃ new bytes rest', Logs settings head kept rest rs db db' new bytes rest' := by
  cases h with
  | @forget key entry hlookup =>
    refine ⟨[], [], rest, .of_same hkept rfl (fun _ _ he => he) fun h => ⟨h.time, fun k => ?_⟩⟩
    have hentry := h.entry k
    change db.memory.map.lookup k = if k ∈ db.removing.filter (· ≠ key) then none else _
    by_cases hk : k = key
    · subst hk
      rw [hlookup] at hentry
      rw [hlookup, hentry]
      split at hentry
      · cases hentry
      · next hnot => simp [hnot]
    · rw [hentry]
      simp [hk]
  | store clock record hlimit htime hpos hsize => exact store_logs htime hpos hsize hkept
  | @unmap key entry hlookup =>
    refine ⟨[], [], rest, .of_same hkept rfl (fun k e he => ?_) fun h => ⟨?_, fun k => ?_⟩⟩
    · rw [DatabaseObject.unmap, Memory.lookup_eraseMapEntry] at he
      split at he
      · cases he
      · exact he
    · intro htracked
      rw [DatabaseObject.unmap, Memory.eraseMapEntry_time]
      exact h.time htracked
    · rw [DatabaseObject.unmap, Memory.lookup_eraseMapEntry, h.entry k]
      by_cases hk : k = key <;> simp [hk]
  | removes hlimits hne hlen => exact writeMultiRemove_logs hne hlen hkept
  | access key htracked =>
    exact ⟨[], [], rest, .of_same hkept rfl (fun _ _ he => he) fun h => ⟨h.time, h.entry⟩⟩
  | accesses clock hlimits htracked hlen =>
    obtain ⟨new, bytes, rest', hlogs, -⟩ := writeMultiAccessBlock_logs _ clock htracked hlen hkept
    exact ⟨new, bytes, rest', hlogs⟩
  | disk disk =>
    exact ⟨[], [], rest, .of_same hkept rfl (fun _ _ he => he) fun h => ⟨h.time, h.entry⟩⟩
  | stale stale =>
    exact ⟨[], [], rest, .of_same hkept rfl (fun _ _ he => he) fun h => ⟨h.time, h.entry⟩⟩
  | collect clock =>
    obtain ⟨hmap, htime, -⟩ := db.memory.collectTimeStale_frame settings clock
    change (db.collectStale settings clock).2.map = _ at hmap
    change (db.collectStale settings clock).2.time = _ at htime
    refine ⟨[], [], rest, .of_same hkept rfl (fun k e he => ?_) fun h => ⟨?_, fun k => ?_⟩⟩
    · rwa [hmap] at he
    · intro htracked
      rw [htime]
      exact h.time htracked
    · rw [hmap]
      exact h.entry k
  | rehash order =>
    have hsame : (db.rehash order).binlog = db.binlog ∧ (db.rehash order).removing = db.removing ∧
        (db.rehash order).memory.time = db.memory.time := by
      unfold DatabaseObject.rehash
      split <;> exact ⟨rfl, rfl, rfl⟩
    obtain ⟨hbinlog, hremoving, htime⟩ := hsame
    refine ⟨[], [], rest, .of_same hkept hbinlog (fun k e he => ?_) fun h => ⟨?_, fun k => ?_⟩⟩
    · rwa [lookup_rehash] at he
    · intro htracked
      rw [htime]
      exact h.time htracked
    · rw [lookup_rehash, hremoving]
      exact h.entry k

/-- Any number of events. -/
theorem Logs.trans {db₁ db₂ : DatabaseObject} {new new' : List Record} {bytes bytes' rest' rest'' : List UInt8}
    (h₁ : Logs settings head kept rest rs db db₁ new bytes rest')
    (h₂ : Logs settings head (kept ++ bytes) rest' (rs ++ new) db₁ db₂ new' bytes' rest'') :
    Logs settings head kept rest rs db db₂ (new ++ new') (bytes ++ bytes') rest'' where
  log := by rw [← List.append_assoc, ← List.append_assoc]; exact h₂.log
  stored h := by rw [← List.append_assoc]; exact h₂.stored (h₁.stored h)
  mode hopen := (h₂.mode hopen).trans (h₁.mode (h₂.mode hopen ▸ hopen))
  rest hopen := by
    rw [h₂.rest hopen, h₁.rest (h₂.mode hopen ▸ hopen), List.drop_drop, List.length_append]
  encoded := by rw [h₁.encoded, h₂.encoded, encodeLog_append]
  fits r hr := (List.mem_append.mp hr).elim (h₁.fits r) (h₂.fits r)
  refines hopen h := by
    rw [← List.append_assoc]
    exact h₂.refines hopen (h₁.refines (h₂.mode hopen ▸ hopen) h)

theorem events_logs (h : Relation.ReflTransGen (Event settings ok) db db')
    (hkept : Kept settings head kept rest rs db.binlog) :
    ∃ new bytes rest', Logs settings head kept rest rs db db' new bytes rest' := by
  induction h with
  | refl => exact ⟨[], [], rest, .of_same hkept rfl (fun _ _ he => he) fun h => h⟩
  | tail _ hevent ih =>
    obtain ⟨new, bytes, rest', hlogs⟩ := ih
    obtain ⟨new', bytes', rest'', hlogs'⟩ := hevent.logs hlogs.log
    exact ⟨_, _, _, hlogs.trans hlogs'⟩

end Bettergram.Storage.Cache
