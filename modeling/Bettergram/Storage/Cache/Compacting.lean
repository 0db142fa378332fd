import Bettergram.Storage.Cache.ContentsRuns

/-! # Compaction

What the compactor has written is a snapshot of the entries of the keys it asked
for, taken at different times while the log went on. The records that came into
the log meanwhile are copied behind it, so each key is replayed over a value that
already has some of them, and that makes no difference.
-/

namespace Bettergram.Storage.Cache
open Foundation DatabaseObject

variable {settings : Settings} {head kept : List UInt8} {rs : List Record}
  {db db' db₁ : DatabaseObject}

/-! ## What goes into the log -/

/-- A stretch of a run at whose end the log is open: the records that came into it decide about every
key whose removal was pending before and is not any more. -/
structure Appends (settings : Settings) (head kept : List UInt8) (rs : List Record)
    (db db' : DatabaseObject) (bytes : List UInt8) (new : List Record) : Prop where
  log : Kept settings head (kept ++ bytes) [] (rs ++ new) db'.binlog
  refines : Refines settings head (rs ++ new) db'
  isLog : IsLog settings bytes new
  settles : ∀ key ∈ db.removing, key ∈ db'.removing ∨
    ∃ op ∈ logOps settings (startTime head).relative key new, op.Decides

theorem Kept.records_unique {binlog : PlainFile} {kept' : List UInt8} {rs' : List Record}
    (h : Kept settings head kept [] rs binlog) (h' : Kept settings head kept' [] rs' binlog) :
    rs = rs' := by
  have hdata := h.data.symm.trans h'.data
  rw [List.append_nil, List.append_nil] at hdata
  rw [← h.log.decoded, ← h'.log.decoded, List.append_cancel_left hdata]

/-- A record that leaves the log open is the only one written. -/
theorem store_records {limit : Option ℕ} {record : Store} {bytes : List UInt8} {new : List Record}
    (hpos : record.size ≠ 0) (hsize : record.size ≤ settings.maxDataSize)
    (htime : settings.trackEstimatedTime = false → record.time = {})
    (hkept : Kept settings head kept [] rs db.binlog)
    (hopen : ((db.forget record.key).writeStore settings limit record).2.binlog.mode.isSome = true)
    (hnew : Kept settings head (kept ++ bytes) [] (rs ++ new)
      ((db.forget record.key).writeStore settings limit record).2.binlog) :
    new = [.store record] := by
  have hlt := settings.maxDataSize_lt
  have hfits : (Record.store record).Fits settings := ⟨by omega, htime⟩
  have hacc : (Record.store record).Accepted settings = true := by
    simp [Record.Accepted, Record.stores, Memory.ValidSize, hpos, hsize]
  have hforget : (db.forget record.key).binlog = db.binlog := rfl
  unfold writeStore at hnew hopen
  rw [hforget] at hnew hopen
  rcases hkept.writeOpen hfits hacc limit with ⟨p, heq, -, -, hlog⟩ | ⟨p, rest', heq, -⟩
  · change db.binlog.writeOpen limit (record.encode settings.trackEstimatedTime) = _ at heq
    rw [heq] at hnew
    rw [List.drop_nil] at hlog
    exact List.append_cancel_left (hnew.records_unique hlog)
  · change db.binlog.writeOpen limit (record.encode settings.trackEstimatedTime) = _ at heq
    rw [heq] at hopen
    cases hopen

theorem removes_records {limits : Fin 2 → Option ℕ} {bytes : List UInt8} {new : List Record}
    (hne : db.removing ≠ []) (hlen : db.removing.length ≤ settings.maxBundledRecords)
    (hkept : Kept settings head kept [] rs db.binlog)
    (hopen : (db.writeMultiRemove limits).2.binlog.mode.isSome = true)
    (hnew : Kept settings head (kept ++ bytes) [] (rs ++ new) (db.writeMultiRemove limits).2.binlog) :
    new = [.multiRemove db.removing] := by
  have hfits : (Record.multiRemove db.removing).Fits settings := ⟨hne, hlen⟩
  have hbytes : (Record.multiRemove db.removing).encode settings.trackEstimatedTime =
      Record.multiHead 0x03 db.removing.length (leBytes 12 0) ++ db.removing.flatMap Key.encode := rfl
  rw [writeMultiRemove_of_ne limits hne] at hnew hopen
  rcases hkept.writeBinlog hfits rfl limits hbytes with ⟨p, heq, -, -, hlog⟩ | ⟨p, rest', heq, -⟩
  · rw [heq, if_pos rfl] at hnew
    rw [List.drop_nil] at hlog
    exact List.append_cancel_left (hnew.records_unique hlog)
  · rw [heq, if_neg (by simp)] at hopen
    cases hopen

theorem Event.appends {ok : Option ℕ → Prop} (h : Event settings ok db db')
    (hkept : Kept settings head kept [] rs db.binlog) (hopen : db'.binlog.mode.isSome = true)
    (hrefines : Refines settings head rs db) :
    ∃ bytes new, Appends settings head kept rs db db' bytes new := by
  obtain ⟨new, bytes, rest', hlogs⟩ := h.logs hkept
  obtain rfl : rest' = [] := by rw [hlogs.rest hopen, List.drop_nil]
  have hlog := hlogs.log
  refine ⟨bytes, new, hlog, hlogs.refines hopen hrefines, ?_, ?_⟩
  · rw [hlogs.encoded]
    exact .encodeLog hlogs.fits fun r hr => hlog.log.accepted r (List.mem_append_right _ hr)
  · intro key hkey
    cases h with
    | @forget forgotten entry hlookup =>
      by_cases hk : key = forgotten
      · subst hk
        have hentry := hrefines.entry key
        rw [hlookup, if_pos hkey] at hentry
        cases hentry
      · exact .inl (by simpa [DatabaseObject.forget, hk] using hkey)
    | store clock record hlimit htime hpos hsize =>
      by_cases hk : key = record.key
      · have hnew := store_records hpos hsize (fun huntracked => recordTime_untracked huntracked htime)
          hkept hopen hlog
        right
        refine ⟨.set (Memory.entryOf settings record (startTime head).relative), ?_, by
          simp [KeyOp.Decides]⟩
        simp [hnew, logOps, Record.opsAt, Record.goodParts, Record.stores, storeOps,
          Memory.ValidSize, hpos, hsize, hk]
      · left
        rw [(writeStore_removing settings _ record (db.forget record.key)).1]
        simpa [DatabaseObject.forget, hk] using hkey
    | @unmap unmapped entry hlookup => exact .inl (by simp [DatabaseObject.unmap, hkey])
    | removes hlimits hne hlen =>
      have hnew := removes_records hne hlen hkept hopen hlog
      exact .inr ⟨.erase, by simp [hnew, logOps, Record.opsAt, hkey], by simp [KeyOp.Decides]⟩
    | access accessed htracked => exact .inl hkey
    | accesses clock hlimits htracked hlen =>
      exact .inl (by rwa [(writeMultiAccessBlock_frame _ _ _).2.1])
    | disk disk => exact .inl hkey
    | stale stale => exact .inl hkey
    | collect clock => exact .inl hkey
    | rehash order =>
      left
      unfold DatabaseObject.rehash
      split <;> exact hkey

theorem Appends.refl (hkept : Kept settings head kept [] rs db.binlog)
    (hrefines : Refines settings head rs db) : Appends settings head kept rs db db [] [] where
  log := by rwa [List.append_nil, List.append_nil]
  refines := by rwa [List.append_nil]
  isLog := .nil
  settles _ hkey := .inl hkey

theorem Appends.trans {bytes more : List UInt8} {new newer : List Record}
    (h : Appends settings head kept rs db db₁ bytes new)
    (h' : Appends settings head (kept ++ bytes) (rs ++ new) db₁ db' more newer) :
    Appends settings head kept rs db db' (bytes ++ more) (new ++ newer) where
  log := by rw [← List.append_assoc, ← List.append_assoc]; exact h'.log
  refines := by rw [← List.append_assoc]; exact h'.refines
  isLog := h.isLog.append h'.isLog
  settles key hkey := by
    rw [logOps_append]
    rcases h.settles key hkey with hstill | ⟨op, hop, hdecides⟩
    · rcases h'.settles key hstill with hstill' | ⟨op, hop, hdecides⟩
      · exact .inl hstill'
      · exact .inr ⟨op, List.mem_append_right _ hop, hdecides⟩
    · exact .inr ⟨op, List.mem_append_left _ hop, hdecides⟩

theorem events_append {ok : Option ℕ → Prop} (h : Relation.ReflTransGen (Event settings ok) db db')
    (hkept : Kept settings head kept [] rs db.binlog) (hopen : db'.binlog.mode.isSome = true)
    (hrefines : Refines settings head rs db) :
    ∃ bytes new, Appends settings head kept rs db db' bytes new := by
  induction h with
  | refl => exact ⟨[], [], .refl hkept hrefines⟩
  | tail hevents hevent ih =>
    -- a log that was closed once stays so
    obtain ⟨_, _, _, hlogs⟩ := events_logs hevents hkept
    obtain ⟨_, _, _, hlast⟩ := hevent.logs hlogs.log
    obtain ⟨bytes, new, happends⟩ := ih (hlast.mode hopen ▸ hopen)
    obtain ⟨more, newer, happends'⟩ := hevent.appends happends.log hopen happends.refines
    exact ⟨_, _, happends.trans happends'⟩

/-! ## Reading the keys -/

namespace CompactorObject

/-- The keys that some bytes of the log store. -/
def storeKeys (settings : Settings) (bytes : List UInt8) : List Key :=
  (decodeLog settings bytes).flatMap keysOf

theorem feed_pushKeys (bs : List (List UInt8)) (result : List Key) :
    feed (pushKeys settings) bs result =
      (result ++ (bs.map (Record.decode settings.trackEstimatedTime)).flatMap keysOf, bs) := by
  induction bs generalizing result with
  | nil => simp [feed]
  | cons b bs ih => simp [feed, pushKeys, ih]

theorem readChunk_finished {w : BinlogWrapper} (hfinished : w.finished = true) (fuel : ℕ)
    (result : List Key) : readChunk settings fuel w result = (w, result) := by
  cases fuel with
  | zero => rfl
  | succ fuel =>
    have hread : BinlogReader.readTillEnd settings (pushKeys settings) w result = (true, w, result) := by
      simp [BinlogReader.readTillEnd, BinlogWrapper.readPart, hfinished]
    rw [readChunk, hread]
    split <;> rfl

/-- A chunk has the keys of the records it takes, and is only empty at the end of the log. -/
theorem readChunk_spec {w : BinlogWrapper} (h : Reading settings w) {fuel : ℕ}
    (hfuel : w.till - w.binlog.cursor + 1 < fuel) (result : List Key) :
    let after := readChunk settings fuel w result
    (∀ key ∈ result, key ∈ after.2) ∧
      ((∀ key ∈ storeKeys settings w.unread, key ∈ after.2) ∨
        (Reading settings after.1 ∧ after.1.till = w.till ∧
          after.1.binlog.data = w.binlog.data ∧ after.2 ≠ [] ∧
          ∀ key ∈ storeKeys settings w.unread,
            key ∈ after.2 ∨ key ∈ storeKeys settings after.1.unread)) := by
  induction fuel generalizing w result with
  | zero => omega
  | succ fuel ih =>
    have hblock := h.readTillEnd (pushKeys settings) result
    simp only [readChunk]
    split
    · next hfull =>
      have hlimit := settings.compactChunkSize_pos
      refine ⟨fun _ hkey => hkey, .inr ⟨h, rfl, rfl, ?_, fun _ hkey => .inr hkey⟩⟩
      rintro rfl
      simp only [List.length_nil] at hfull
      omega
    · generalize BinlogReader.readTillEnd settings (pushKeys settings) w result = block at hblock ⊢
      cases hblock with
      | @ended done w' hdone hbinlog =>
        rw [feed_pushKeys]
        have hafter : ∀ (after : BinlogWrapper × List Key), after.2 = result ++
            ((records (readRecordSize settings) w.unread).map
              (Record.decode settings.trackEstimatedTime)).flatMap keysOf →
            (∀ key ∈ result, key ∈ after.2) ∧ ∀ key ∈ storeKeys settings w.unread, key ∈ after.2 :=
          fun after heq => by
            rw [heq]
            exact ⟨fun _ hkey => List.mem_append_left _ hkey, fun _ hkey => List.mem_append_right _ hkey⟩
        cases done with
        | true =>
          obtain ⟨hold, hnew⟩ := hafter (w', _) rfl
          exact ⟨hold, .inl hnew⟩
        | false =>
          have hfinished : w'.finished = true := hdone.resolve_left (by simp)
          dsimp only
          rw [readChunk_finished hfinished]
          obtain ⟨hold, hnew⟩ := hafter (w', _) rfl
          exact ⟨hold, .inl hnew⟩
      | @more w' rs hreading hrecords haccepted hposition hbinlog hforward htill =>
        have hcursor := hreading.cursor_le
        rw [feed_pushKeys]
        obtain ⟨hold, hrest⟩ := ih hreading (by omega)
          (result ++ (rs.map (Record.decode settings.trackEstimatedTime)).flatMap keysOf)
        have hsplit : storeKeys settings w.unread =
            (rs.map (Record.decode settings.trackEstimatedTime)).flatMap keysOf ++
              storeKeys settings w'.unread := by
          rw [storeKeys, decodeLog, hrecords, List.map_append, List.flatMap_append]
          rfl
        refine ⟨fun key hkey => hold key (List.mem_append_left _ hkey), ?_⟩
        rw [hsplit]
        rcases hrest with hall | ⟨hreading', htill', hdata', hne, hkeys⟩
        · left
          intro key hkey
          rcases List.mem_append.mp hkey with hkey | hkey
          · exact hold key (List.mem_append_right _ hkey)
          · exact hall key hkey
        · right
          refine ⟨hreading', htill'.trans htill, hdata'.trans (by rw [hbinlog]; rfl), hne, ?_⟩
          intro key hkey
          rcases List.mem_append.mp hkey with hkey | hkey
          · exact .inl (hold key (List.mem_append_right _ hkey))
          · exact hkeys key hkey

end CompactorObject

/-! ## Writing the entries -/

namespace CompactorObject

/-- The parts are in the file in bundles, the last ones still in the list. -/
structure Written (settings : Settings) (head : List UInt8) (parts : List Store)
    (c : CompactorObject) : Prop where
  bundles : ∃ bundles : List (List Store),
    c.compact = head ++ encodeLog settings (bundles.map .multiStore) ∧
      bundles.flatten ++ c.list = parts ∧
      ∀ bundle ∈ bundles, bundle ≠ [] ∧ bundle.length ≤ settings.maxBundledRecords
  list_le : c.list.length ≤ settings.maxBundledRecords
  written : ∀ key, key ∈ c.written ↔ key ∈ parts.map Store.key

variable (settings) in
/-- A key is only written once. -/
def addPart (info : CompactorInfo) (parts : List Store) (raw : Raw) : List Store :=
  if raw.1 ∈ parts.map Store.key then parts else parts ++ [recordOf settings info raw]

/-- What the loops over the values leave alone. -/
structure Same (c c' : CompactorObject) : Prop where
  info : c'.info = c.info
  wrapper : c'.wrapper = c.wrapper

theorem Same.trans {c c₁ c₂ : CompactorObject} (h : c.Same c₁) (h' : c₁.Same c₂) : c.Same c₂ :=
  ⟨h'.info.trans h.info, h'.wrapper.trans h.wrapper⟩

variable {parts : List Store} {c : CompactorObject}

theorem Written.addListRecord (h : Written settings head parts c) (raw : Raw)
    (hroom : c.list.length < settings.maxBundledRecords) :
    Written settings head (addPart settings c.info parts raw) (c.addListRecord settings raw) ∧
      c.Same (c.addListRecord settings raw) := by
  unfold CompactorObject.addListRecord addPart
  by_cases hkey : raw.1 ∈ c.written
  · rw [if_pos hkey, if_pos ((h.written _).mp hkey)]
    exact ⟨h, rfl, rfl⟩
  · rw [if_neg hkey, if_neg fun hmem => hkey ((h.written _).mpr hmem)]
    obtain ⟨bundles, hcompact, hparts, hbundles⟩ := h.bundles
    refine ⟨⟨⟨bundles, hcompact, ?_, hbundles⟩, ?_, fun key => ?_⟩, rfl, rfl⟩
    · rw [← hparts, List.append_assoc]
    · rw [List.length_append]
      exact hroom
    · rw [List.map_append, List.mem_append, ← h.written key]
      simp [recordOf, or_comm]

theorem Written.fillList (h : Written settings head parts c) (values : List Raw) :
    let filled := c.fillList settings values
    ∃ taken, values = taken ++ filled.1 ∧
      Written settings head (taken.foldl (addPart settings c.info) parts) filled.2 ∧
      c.Same filled.2 ∧
      (filled.1 = [] ∨ filled.2.list.length = settings.maxBundledRecords) ∧
      (c.list.length < settings.maxBundledRecords → values ≠ [] →
        filled.1.length < values.length) := by
  induction values generalizing c parts with
  | nil => exact ⟨[], rfl, h, ⟨rfl, rfl⟩, .inl rfl, fun _ hne => absurd rfl hne⟩
  | cons raw rest ih =>
    simp only [CompactorObject.fillList]
    split
    · next hfull =>
      exact ⟨[], rfl, h, ⟨rfl, rfl⟩, .inr hfull, fun hroom => absurd hfull (by omega)⟩
    · next hnotFull =>
      have hle := h.list_le
      obtain ⟨hadded, hsame⟩ := h.addListRecord raw (by omega)
      obtain ⟨taken, hvalues, hwritten, hsame', hend, -⟩ := ih hadded
      rw [hsame.info] at hwritten
      refine ⟨raw :: taken, by rw [List.cons_append, ← hvalues], hwritten, hsame.trans hsame', hend,
        fun _ _ => ?_⟩
      have hlen := congrArg List.length hvalues
      rw [List.length_append] at hlen
      rw [List.length_cons]
      omega

theorem encodeLog_bundle (bundles : List (List Store)) (bundle : List Store) :
    encodeLog settings ((bundles ++ [bundle]).map .multiStore) =
      encodeLog settings (bundles.map .multiStore) ++
        (Record.multiStore bundle).encode settings.trackEstimatedTime := by
  rw [List.map_append, encodeLog_append]
  simp [encodeLog]

theorem Written.writeList (h : Written settings head parts c) :
    Written settings head parts (c.writeList settings) ∧ c.Same (c.writeList settings) ∧
      (c.writeList settings).list = [] := by
  unfold CompactorObject.writeList
  split
  · next hnil => exact ⟨h, ⟨rfl, rfl⟩, hnil⟩
  · next hne =>
    obtain ⟨bundles, hcompact, hparts, hbundles⟩ := h.bundles
    refine ⟨⟨⟨bundles ++ [c.list], ?_, ?_, ?_⟩, Nat.zero_le _, h.written⟩, ⟨rfl, rfl⟩, rfl⟩
    · rw [encodeLog_bundle, ← List.append_assoc, ← hcompact]
    · simpa using hparts
    · intro bundle hbundle
      rcases List.mem_append.mp hbundle with hbundle | hbundle
      · exact hbundles bundle hbundle
      · rw [List.mem_singleton] at hbundle
        subst hbundle
        exact ⟨hne, h.list_le⟩

/-- With room in the list every round takes a value. -/
theorem Written.fillLists_room (h : Written settings head parts c)
    (hroom : c.list.length < settings.maxBundledRecords) {fuel : ℕ} {values : List Raw}
    (hfuel : values.length < fuel) :
    Written settings head (values.foldl (addPart settings c.info) parts)
        (c.fillLists settings fuel values) ∧ c.Same (c.fillLists settings fuel values) := by
  induction fuel generalizing c parts values with
  | zero => omega
  | succ fuel ih =>
    obtain ⟨taken, hvalues, hwritten, hsame, -, hless⟩ := h.fillList values
    simp only [CompactorObject.fillLists]
    generalize c.fillList settings values = filled at *
    obtain ⟨left, c'⟩ := filled
    cases left with
    | nil =>
      rw [List.append_nil] at hvalues
      exact ⟨hvalues ▸ hwritten, hsame⟩
    | cons raw left =>
      have hne : values ≠ [] := by
        rintro rfl
        simp at hvalues
      have hfewer := hless hroom hne
      obtain ⟨hflushed, hsame', hnil⟩ := hwritten.writeList
      have hpos := settings.maxBundledRecords_pos
      dsimp only at hfewer hflushed hsame' hnil ⊢
      obtain ⟨hrest, hsame''⟩ := ih hflushed (by rw [hnil]; exact hpos)
        (show (raw :: left).length < fuel by omega)
      rw [hsame'.info, hsame.info, ← List.foldl_append, ← hvalues] at hrest
      exact ⟨hrest, hsame.trans (hsame'.trans hsame'')⟩

/-- All values are taken. -/
theorem Written.fillLists (h : Written settings head parts c) (values : List Raw) :
    Written settings head (values.foldl (addPart settings c.info) parts)
        (c.fillLists settings (2 * values.length + 2) values) ∧
      c.Same (c.fillLists settings (2 * values.length + 2) values) := by
  obtain ⟨taken, hvalues, hwritten, hsame, -, -⟩ := h.fillList values
  simp only [CompactorObject.fillLists]
  generalize c.fillList settings values = filled at *
  obtain ⟨left, c'⟩ := filled
  cases left with
  | nil =>
    rw [List.append_nil] at hvalues
    exact ⟨hvalues ▸ hwritten, hsame⟩
  | cons raw left =>
    have hlen := congrArg List.length hvalues
    rw [List.length_append] at hlen
    obtain ⟨hflushed, hsame', hnil⟩ := hwritten.writeList
    have hpos := settings.maxBundledRecords_pos
    dsimp only at hlen hflushed hsame' hnil ⊢
    obtain ⟨hrest, hsame''⟩ := hflushed.fillLists_room (by rw [hnil]; exact hpos)
      (show (raw :: left).length < 2 * values.length + 1 by omega)
    rw [hsame'.info, hsame.info, ← List.foldl_append, ← hvalues] at hrest
    exact ⟨hrest, hsame.trans (hsame'.trans hsame'')⟩

end CompactorObject

/-! ## Snapshots -/

/-- The entry that some written parts make. -/
def snapshot (settings : Settings) (relative : UInt64) (parts : List Store) (key : Key) :
    Option Entry :=
  replayKey Entry.touched (storeOps settings relative key parts) none

/-- The records `ts` make the same of what was written as of what was there before, unless the
removal of the key is still pending. -/
def Settled (settings : Settings) (relative : UInt64) (rs₀ ts : List Record) (removing : List Key)
    (parts : List Store) (key : Key) : Prop :=
  key ∈ removing ∨
    replayKey Entry.touched (logOps settings relative key ts) (snapshot settings relative parts key) =
      replayKey Entry.touched (logOps settings relative key ts) (logEntry settings relative rs₀ key)

variable {relative : UInt64} {rs₀ ts : List Record} {parts : List Store} {info : CompactorInfo}

theorem snapshot_none {key : Key} (h : key ∉ parts.map Store.key) :
    snapshot settings relative parts key = none := by
  have hfilter : parts.filter (·.key = key) = [] := by
    rw [List.filter_eq_nil_iff]
    intro part hpart
    simpa using fun heq : part.key = key => h (heq ▸ List.mem_map_of_mem hpart)
  rw [snapshot, storeOps, hfilter]
  rfl

theorem snapshot_append (part : Store) (key : Key) :
    snapshot settings relative (parts ++ [part]) key =
      if part.key = key then some (Memory.entryOf settings part relative)
      else snapshot settings relative parts key := by
  rw [snapshot, storeOps, List.filter_append, List.map_append, replayKey_append]
  by_cases hkey : part.key = key
  · simp [hkey, KeyOp.apply]
  · simp [hkey, snapshot, storeOps]

theorem mem_addPart (parts : List Store) (raw : Raw) (key : Key) :
    key ∈ (CompactorObject.addPart settings info parts raw).map Store.key ↔
      key ∈ parts.map Store.key ∨ key = raw.1 := by
  unfold CompactorObject.addPart
  split
  · next hmem =>
    refine ⟨.inl, fun h => h.elim id fun heq => ?_⟩
    rwa [heq]
  · simp [CompactorObject.recordOf]

theorem mem_addParts (values : List Raw) (parts : List Store) (key : Key) :
    key ∈ (values.foldl (CompactorObject.addPart settings info) parts).map Store.key ↔
      key ∈ parts.map Store.key ∨ key ∈ values.map Sigma.fst := by
  induction values generalizing parts with
  | nil => simp
  | cons raw values ih =>
    rw [List.foldl_cons, ih, mem_addPart, List.map_cons, List.mem_cons, or_assoc]

theorem mem_of_addParts {values : List Raw} {parts : List Store} {part : Store}
    (h : part ∈ values.foldl (CompactorObject.addPart settings info) parts) :
    part ∈ parts ∨ ∃ raw ∈ values, part = CompactorObject.recordOf settings info raw := by
  induction values generalizing parts with
  | nil => exact .inl h
  | cons raw values ih =>
    rcases ih h with hadded | ⟨later, hlater, rfl⟩
    · unfold CompactorObject.addPart at hadded
      split at hadded
      · exact .inl hadded
      · rcases List.mem_append.mp hadded with hold | hnew
        · exact .inl hold
        · exact .inr ⟨raw, by simp, by simpa using hnew⟩
    · exact .inr ⟨later, by simp [hlater], rfl⟩

/-- A key keeps what was written for it first. -/
theorem snapshot_addParts_of_mem {parts : List Store} {key : Key} (h : key ∈ parts.map Store.key)
    (values : List Raw) :
    snapshot settings relative (values.foldl (CompactorObject.addPart settings info) parts) key =
      snapshot settings relative parts key := by
  induction values generalizing parts with
  | nil => rfl
  | cons raw values ih =>
    rw [List.foldl_cons, ih ((mem_addPart parts raw key).mpr (.inl h))]
    unfold CompactorObject.addPart
    split
    · rfl
    · next hnot =>
      rw [snapshot_append, if_neg]
      rintro rfl
      exact hnot h

/-- A key that was not written before has its value from a map after all of them. -/
theorem snapshot_addParts {values : List Raw} (entry : Key → Option Entry)
    (hvalues : ∀ raw ∈ values, entry raw.1 =
      some (Memory.entryOf settings (CompactorObject.recordOf settings info raw) relative))
    {parts : List Store} {key : Key} (h : key ∉ parts.map Store.key)
    (hkey : key ∈ values.map Sigma.fst) :
    snapshot settings relative (values.foldl (CompactorObject.addPart settings info) parts) key =
      entry key := by
  induction values generalizing parts with
  | nil => simp at hkey
  | cons raw values ih =>
    rw [List.foldl_cons]
    by_cases hfirst : key = raw.1
    · subst hfirst
      rw [snapshot_addParts_of_mem ((mem_addPart parts raw raw.1).mpr (.inr rfl)),
        CompactorObject.addPart, if_neg h, snapshot_append,
        if_pos (show (CompactorObject.recordOf settings info raw).key = raw.1 from rfl),
        hvalues raw (List.mem_cons_self ..)]
    · refine ih (fun r hr => hvalues r (List.mem_cons_of_mem _ hr)) ?_ ?_
      · rw [mem_addPart]
        exact fun hmem => hmem.elim h hfirst
      · exact (List.mem_cons.mp hkey).resolve_left hfirst

/-- Writing other keys leaves the entry of a key alone. -/
theorem snapshot_addParts_of_not_mem {values : List Raw} {parts : List Store} {key : Key}
    (hkey : key ∉ values.map Sigma.fst) :
    snapshot settings relative (values.foldl (CompactorObject.addPart settings info) parts) key =
      snapshot settings relative parts key := by
  by_cases h : key ∈ parts.map Store.key
  · exact snapshot_addParts_of_mem h values
  · rw [snapshot_none h, snapshot_none fun hmem => ((mem_addParts values parts key).mp hmem).elim h hkey]

/-- Later records keep a key settled. -/
theorem Settled.appends {bytes : List UInt8} {new : List Record} {key : Key}
    (happends : Appends settings head kept rs db db' bytes new)
    (h : Settled settings (startTime head).relative rs₀ ts db.removing parts key) :
    Settled settings (startTime head).relative rs₀ (ts ++ new) db'.removing parts key := by
  rcases h with hremoving | heq
  · rcases happends.settles key hremoving with hstill | ⟨op, hop, hdecides⟩
    · exact .inl hstill
    · right
      rw [logOps_append]
      exact replayKey_of_decides (List.mem_append_right _ hop) hdecides _ _
  · right
    rw [logOps_append, replayKey_append, replayKey_append, heq]

/-- Without tracking all entries have one time. -/
theorem logEntry_useTime (hrs : ∀ r ∈ rs, r.Readable settings)
    (huntracked : settings.trackEstimatedTime = false) {key : Key} {e : Entry}
    (h : logEntry settings relative rs key = some e) : e.useTime = relative := by
  refine replayKey_inv (P := fun e : Entry => e.useTime = relative) (by simp) ?_ ?_ e h
  · intro v hv
    obtain ⟨r, -, hop⟩ := List.mem_flatMap.mp hv
    have hset : ∀ parts : List Store, KeyOp.set v ∈ storeOps settings relative key parts →
        v.useTime = relative := by
      intro parts hparts
      obtain ⟨part, -, heq⟩ := List.mem_map.mp hparts
      cases heq
      simp [Memory.entryOf, huntracked]
    cases r with
    | store part => exact hset _ hop
    | multiStore parts => exact hset _ hop
    | multiRemove keys =>
      rw [Record.opsAt] at hop
      split at hop <;> simp at hop
    | multiAccess time keys =>
      rw [Record.opsAt] at hop
      split at hop <;> simp at hop
  · intro time v ht _
    obtain ⟨r, hr, hop⟩ := List.mem_flatMap.mp ht
    have hset : ∀ parts : List Store, KeyOp.touch time ∉ storeOps settings relative key parts := by
      intro parts hparts
      obtain ⟨part, -, heq⟩ := List.mem_map.mp hparts
      cases heq
    cases r with
    | store part => exact absurd hop (hset _)
    | multiStore parts => exact absurd hop (hset _)
    | multiRemove keys =>
      rw [Record.opsAt] at hop
      split at hop <;> simp at hop
    | multiAccess time keys =>
      have htracked : settings.trackEstimatedTime = true := hrs _ hr
      rw [huntracked] at htracked
      cases htracked

variable (info) in
theorem entryOf_recordOf {key : Key} {e : Entry}
    (h : settings.trackEstimatedTime = false → e.useTime = relative) :
    Memory.entryOf settings (CompactorObject.recordOf settings info ⟨key, e⟩) relative = e := by
  unfold Memory.entryOf CompactorObject.recordOf
  cases htracked : settings.trackEstimatedTime with
  | true => rfl
  | false => rw [← h htracked]; rfl

/-- What was written for the keys asked for so far. -/
structure Collected (settings : Settings) (relative : UInt64) (rs₀ ts : List Record)
    (removing asked : List Key) (parts : List Store) : Prop where
  valid : ∀ part ∈ parts, Memory.ValidSize settings part.size ∧
    part.Fits settings.trackEstimatedTime
  known : ∀ key ∈ parts.map Store.key, key ∈ asked
  settled : ∀ key ∈ asked, Settled settings relative rs₀ ts removing parts key

theorem Collected.appends {bytes : List UInt8} {new : List Record} {asked : List Key}
    (happends : Appends settings head kept rs db db' bytes new)
    (h : Collected settings (startTime head).relative rs₀ ts db.removing asked parts) :
    Collected settings (startTime head).relative rs₀ (ts ++ new) db'.removing asked parts where
  valid := h.valid
  known := h.known
  settled key hkey := (h.settled key hkey).appends happends

theorem mem_getManyRaw {keys : List Key} {raw : Raw} (h : raw ∈ db.getManyRaw keys) :
    raw.1 ∈ keys ∧ db.memory.map.lookup raw.1 = some raw.2 := by
  obtain ⟨key, hkey, heq⟩ := List.mem_filterMap.mp h
  obtain ⟨entry, hentry, rfl⟩ := Option.map_eq_some_iff.mp heq
  exact ⟨hkey, hentry⟩

theorem lookup_of_not_mem_getManyRaw {keys : List Key} {key : Key} (hkey : key ∈ keys)
    (h : key ∉ (db.getManyRaw keys).map Sigma.fst) : db.memory.map.lookup key = none := by
  rw [Option.eq_none_iff_forall_ne_some]
  intro entry hentry
  refine h (List.mem_map.mpr ⟨⟨key, entry⟩, ?_, rfl⟩)
  exact List.mem_filterMap.mpr ⟨key, hkey, by rw [hentry]; rfl⟩

variable (info) in
theorem Collected.answer {asked keys : List Key}
    (hrefines : Refines settings head (rs₀ ++ ts) db) (hsized : db.Sized settings)
    (hreadable : ∀ r ∈ rs₀ ++ ts, r.Readable settings)
    (h : Collected settings (startTime head).relative rs₀ ts db.removing asked parts) :
    Collected settings (startTime head).relative rs₀ ts db.removing (asked ++ keys)
      ((db.getManyRaw keys).foldl (CompactorObject.addPart settings info) parts) := by
  have hentry : ∀ raw ∈ db.getManyRaw keys, db.memory.map.lookup raw.1 =
      some (Memory.entryOf settings (CompactorObject.recordOf settings info raw)
        (startTime head).relative) := by
    intro raw hraw
    obtain ⟨-, hlookup⟩ := mem_getManyRaw hraw
    rw [hlookup, entryOf_recordOf info fun huntracked => ?_]
    have hlog := hrefines.entry raw.1
    rw [hlookup] at hlog
    split at hlog
    · cases hlog
    · exact logEntry_useTime hreadable huntracked hlog.symm
  have hlogs := fun key => logEntry_append settings (startTime head).relative rs₀ ts key
  refine ⟨fun part hpart => ?_, fun key hkey => ?_, fun key hkey => ?_⟩
  · rcases mem_of_addParts hpart with hold | ⟨raw, hraw, rfl⟩
    · exact h.valid part hold
    · have hvalid := hsized (mem_getManyRaw hraw).2
      have hlt := settings.maxDataSize_lt
      refine ⟨hvalid, lt_of_le_of_lt hvalid.2 hlt, fun huntracked => ?_⟩
      rw [CompactorObject.recordOf, if_neg (by simp [huntracked])]
  · rcases (mem_addParts _ _ key).mp hkey with hold | hnew
    · exact List.mem_append_left _ (h.known key hold)
    · obtain ⟨raw, hraw, rfl⟩ := List.mem_map.mp hnew
      exact List.mem_append_right _ (mem_getManyRaw hraw).1
  · by_cases hold : key ∈ parts.map Store.key
    · have hsettled := h.settled key (h.known key hold)
      rwa [Settled, ← snapshot_addParts_of_mem hold (db.getManyRaw keys)] at hsettled
    · by_cases hnew : key ∈ (db.getManyRaw keys).map Sigma.fst
      · -- the written entry is what the records make of the entry before them
        have hsnapshot : snapshot settings (startTime head).relative
            ((db.getManyRaw keys).foldl (CompactorObject.addPart settings info) parts) key =
              db.memory.map.lookup key :=
          snapshot_addParts (fun key => db.memory.map.lookup key) hentry hold hnew
        obtain ⟨raw, hraw, rfl⟩ := List.mem_map.mp hnew
        have hlog := hrefines.entry raw.1
        rw [(mem_getManyRaw hraw).2] at hlog
        split at hlog
        · cases hlog
        · right
          rw [hsnapshot, (mem_getManyRaw hraw).2, hlog, hlogs]
          simpa using replayKey_again Entry.touched_touched
            (logOps settings (startTime head).relative raw.1 ts) [] _
      · rw [Settled, snapshot_addParts_of_not_mem hnew]
        rcases List.mem_append.mp hkey with hasked | hkey
        · exact h.settled key hasked
        · have hlog := hrefines.entry key
          rw [lookup_of_not_mem_getManyRaw hkey hnew] at hlog
          split at hlog
          · next hremoving => exact .inl hremoving
          · right
            rw [hlogs] at hlog
            rw [snapshot_none hold, ← hlog]
            exact replayKey_eq_none hlog.symm

end Bettergram.Storage.Cache
