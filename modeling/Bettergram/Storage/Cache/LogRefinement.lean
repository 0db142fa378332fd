import Bettergram.Storage.Cache.LogRecovery

/-! # Closing and opening again

A session opens a log, makes calls and flushes its bundles. When all its file
operations succeed, the records it wrote say what the map is; so opening the log
again gives the same map, as long as the reader takes nothing from the bytes
that are behind them.
-/

namespace Bettergram.Storage.Cache
open Foundation DatabaseObject

variable (settings : Settings)

/-- The log that an open reads: a new one is empty. -/
def DatabaseObject.foundLog (mode : File.Mode) (files : DatabaseObject) : List UInt8 :=
  if mode = .readAppend then files.logFile else []

/-- The refused record of the log, if any, says nothing new. -/
def RepeatsAtOpen (mode : File.Mode) (files : DatabaseObject) : Prop :=
  Repeats settings (startTime ((files.foundLog mode).take 16)).relative
    (decodeLog settings ((files.foundLog mode).drop 16))

/-- The reader takes neither a record nor a part of one from these bytes. -/
def TakesNothing (bytes : List UInt8) : Prop :=
  ∀ r, (decodeLog settings bytes).head? = some r →
    r.Accepted settings = false ∧ r.goodParts settings = []

/-- The bytes behind the place of the next write. -/
def DatabaseObject.behind (db : DatabaseObject) : List UInt8 := db.binlog.data.drop db.binlog.cursor

/-- From an open to the flush before the log is closed; every write to the log succeeds. -/
structure Session (xxh32 : List UInt8 → UInt32) (files : DatabaseObject) (folder : List Char)
    (mode : File.Mode) (openEnv : OpenEnv) (db₀ : DatabaseObject) (calls : List Call)
    (db : DatabaseObject) (closeEnv : Env) : Prop where
  cleared : files.Cleared
  notRead : mode ≠ .read
  opened : files.openBinlog settings folder mode openEnv = (.success, db₀)
  openLimits : ∀ i, openEnv.accessLimits i = none
  run : ∃ answers, db₀.run settings xxh32 calls = some (answers, db)
  callLimits : ∀ call ∈ calls, call.Limits (· = none)
  closeLimits : closeEnv.Limits (· = none)

variable {settings} {db db' : DatabaseObject}

/-! ## What calls leave alone -/

namespace DatabaseObject

theorem writeBinlog_none {binlog : PlainFile} (hopen : binlog.mode.isSome = true)
    {limits : Fin 2 → Option ℕ} (hlimits : ∀ i, limits i = none) (header list : List UInt8) :
    (writeBinlog limits header list binlog).1 = true ∧
      (writeBinlog limits header list binlog).2.mode = binlog.mode := by
  unfold writeBinlog
  rw [hlimits, PlainFile.writeOpen_none hopen]
  dsimp only
  split
  · exact ⟨rfl, rfl⟩
  · simp only [hlimits, PlainFile.writeOpen, hopen, if_true, PlainFile.write_none, and_self]

end DatabaseObject

/-- An event without failures keeps the log open. -/
theorem Event.open_of_granted (h : Event settings (· = none) db db')
    (hopen : db.binlog.mode.isSome = true) : db'.binlog.mode = db.binlog.mode := by
  cases h with
  | forget hlookup => rfl
  | store clock record hlimit htime hpos hsize =>
    unfold writeStore
    rw [hlimit, PlainFile.writeOpen_none (show (db.forget _).binlog.mode.isSome = true from hopen)]
    rfl
  | unmap hlookup => rfl
  | removes hlimits hne hlen =>
    obtain ⟨hwritten, hmode⟩ := writeBinlog_none hopen hlimits
      (Record.multiHead 0x03 db.removing.length (leBytes 12 0)) (db.removing.flatMap Key.encode)
    rw [writeMultiRemove_of_ne _ hne, if_pos hwritten]
    exact hmode
  | access key htracked => rfl
  | accesses clock hlimits htracked hlen =>
    obtain ⟨hwritten, hmode⟩ := writeBinlog_none hopen hlimits
      (Record.multiHead 0x04 db.accessed.length (db.memory.countTimePoint clock).encode)
      (db.accessed.flatMap Key.encode)
    rw [writeMultiAccessBlock_eq]
    dsimp only
    rw [if_pos hwritten]
    exact hmode
  | disk disk => rfl
  | stale stale => rfl
  | collect clock => rfl
  | rehash order =>
    unfold DatabaseObject.rehash
    split <;> rfl

theorem events_open (h : Relation.ReflTransGen (Event settings (· = none)) db db')
    (hopen : db.binlog.mode.isSome = true) : db'.binlog.mode = db.binlog.mode := by
  induction h with
  | refl => rfl
  | tail _ hevent ih => exact (hevent.open_of_granted (ih ▸ hopen)).trans ih

variable {ok : Option ℕ → Prop}

theorem Event.frame (h : Event settings ok db db') : db'.ready = db.ready ∧ db'.path = db.path := by
  cases h with
  | store clock record hlimit htime hpos hsize =>
    unfold writeStore
    split <;> exact ⟨rfl, rfl⟩
  | @removes limits hlimits hne hlen =>
    rw [writeMultiRemove_of_ne limits hne]
    split <;> exact ⟨rfl, rfl⟩
  | accesses clock hlimits htracked hlen =>
    rw [writeMultiAccessBlock_eq]
    dsimp only
    split <;> exact ⟨rfl, rfl⟩
  | rehash order =>
    unfold DatabaseObject.rehash
    split <;> exact ⟨rfl, rfl⟩
  | _ => exact ⟨rfl, rfl⟩

theorem events_frame (h : Relation.ReflTransGen (Event settings ok) db db') :
    db'.ready = db.ready ∧ db'.path = db.path := by
  induction h with
  | refl => exact ⟨rfl, rfl⟩
  | tail _ hevent ih => exact ⟨hevent.frame.1.trans ih.1, hevent.frame.2.trans ih.2⟩

/-! ## A session -/

namespace DatabaseObject

theorem writeBundles_removing (env : Env) (db : DatabaseObject) :
    (db.writeBundles settings env).removing = [] := by
  have hremove := writeMultiRemove_removing env.removeLimits db
  unfold writeBundles
  dsimp only
  split
  · unfold writeMultiAccess
    split
    · exact hremove
    · rw [(writeMultiAccessBlock_frame _ _ _).2.1, hremove]
  · exact hremove

end DatabaseObject

/-- Reading a log leaves it open, unless the block that sets the clock back fails. -/
theorem readBinlog_frame {folder : List Char} {disk : List Char → Option (List UInt8)}
    {head body : List UInt8} {mode : OpenMode} {env : OpenEnv}
    (hdb : db = (headed folder disk head body mode).readBinlog settings env)
    (hhead : head.length = 16) :
    db.ready = none ∧ db.path = folder ∧ db.disk = disk ∧
      ((∀ i, env.accessLimits i = none) → db.binlog.mode = some mode) := by
  obtain ⟨kept, rest, -, -, hreplay⟩ := replayBinlog_headed settings folder disk body mode hhead
  rw [hdb]
  unfold readBinlog adjustRelativeTime
  split
  · next hback =>
    have hlen : ((headed folder disk head body mode).replayBinlog settings).accessed.length ≤
        settings.maxBundledRecords := by
      rw [hreplay]
      exact Nat.zero_le _
    have hevent : ∀ {ok : Option ℕ → Prop}, (∀ i, ok (env.accessLimits i)) →
        Event settings ok _ _ := fun hok => .accesses env.accessClock hok hback.1 hlen
    have hany : Event settings (fun _ => True) _ _ := hevent fun _ => trivial
    have hframe := hany.frame
    have hdisk := (writeMultiAccessBlock_frame env.accessLimits env.accessClock
      ((headed folder disk head body mode).replayBinlog settings)).2.2.2.2
    refine ⟨hframe.1.trans ?_, hframe.2.trans ?_, hdisk.trans ?_, fun hlimits => ?_⟩
    · rw [hreplay]
      rfl
    · rw [hreplay]
      rfl
    · rw [hreplay]
      rfl
    · rw [(hevent hlimits).open_of_granted (by rw [hreplay]; rfl), hreplay]
  · rw [hreplay]
    exact ⟨rfl, rfl, rfl, fun _ => rfl⟩

theorem sized_of_readEntry {head : List UInt8} {rs : List Record}
    (h : ∀ key, db.memory.map.lookup key = readEntry settings (startTime head).relative rs key) :
    db.Sized settings := by
  intro key e he
  rw [h] at he
  obtain ⟨r, -, part, hpart, -, -, hsize, -⟩ := exists_store_of_logEntry he
  rw [← hsize]
  simpa using List.mem_takeWhile_imp hpart

variable {xxh32 : List UInt8 → UInt32} {files db₀ : DatabaseObject} {folder : List Char}
  {mode : File.Mode} {openEnv : OpenEnv} {calls : List Call} {closeEnv : Env}

/-- What an open finds is a header and a body; a short file counts as empty. -/
theorem openBinlog_found (hcleared : files.Cleared) (hmode : mode ≠ .read)
    (h : files.openBinlog settings folder mode openEnv = (.success, db₀)) :
    ∃ head fileMode, ValidHead settings head ∧
      (16 ≤ (files.foundLog mode).length → head = (files.foundLog mode).take 16) ∧
      db₀ = (headed folder files.disk head ((files.foundLog mode).drop 16) fileMode).readBinlog
        settings openEnv := by
  obtain ⟨head, body, fileMode, hvalid, hdb, hlog⟩ := openBinlog_success hcleared hmode h
  refine ⟨head, fileMode, hvalid, ?_⟩
  unfold DatabaseObject.foundLog
  split at hlog
  · next hfound =>
    rw [if_pos hfound.1, hlog, ← hvalid.length, List.take_left, List.drop_left, hdb]
    exact ⟨fun _ => rfl, rfl⟩
  · next hnone =>
    subst hlog
    by_cases hmode : mode = .readAppend
    · rw [if_pos hmode, List.drop_of_length_le (by
        have hshort : ¬16 ≤ files.logFile.length := fun hle => hnone ⟨hmode, hle⟩
        omega)]
      exact ⟨fun hle => absurd ⟨hmode, hle⟩ hnone, hdb⟩
    · rw [if_neg hmode]
      exact ⟨fun hle => absurd hle (by simp), hdb⟩

/-- The log after a session: the records found, those written, and what they did not reach. -/
theorem Session.outcome (h : Session settings xxh32 files folder mode openEnv db₀ calls db closeEnv) :
    let found := decodeLog settings ((files.foundLog mode).drop 16)
    let final := db.writeBundles settings closeEnv
    ∃ head kept rest written, ValidHead settings head ∧
      (16 ≤ (files.foundLog mode).length → head = (files.foundLog mode).take 16) ∧
      (files.foundLog mode).drop 16 = kept ++ rest ∧
      IsLog settings kept (acceptedRecords settings found) ∧
      (∀ r ∈ written, r.Fits settings) ∧
      Kept settings head (kept ++ encodeLog settings written)
        (rest.drop (encodeLog settings written).length)
        (acceptedRecords settings found ++ written) final.binlog ∧
      db.binlog.mode.isSome = true ∧ final.binlog.mode.isSome = true ∧ final.ready = none ∧
      (Repeats settings (startTime head).relative found →
        Refines settings head (acceptedRecords settings found ++ written) final) := by
  intro found final
  obtain ⟨head, fileMode, hvalid, hfound, hdb₀⟩ := openBinlog_found h.cleared h.notRead h.opened
  set body := (files.foundLog mode).drop 16 with hbody
  obtain ⟨kept, rest, new, rest', hsplit, hlog, hkept, hrest, hfits, hops, hlookup, htime, hremoving,
    haccessed⟩ := readBinlog_headed hdb₀ hvalid
  obtain ⟨hready, -, -, hmode⟩ := readBinlog_frame hdb₀ hvalid.length
  have hopened : db₀.binlog.mode.isSome = true := by rw [hmode h.openLimits, Option.isSome_some]
  have hbundled : db₀.Bundled settings :=
    ⟨by simp [hremoving, settings.maxBundledRecords_pos],
      by simp [haccessed, settings.maxBundledRecords_pos]⟩
  obtain ⟨answers, hrun⟩ := h.run
  have hlead := run_leads h.callLimits hbundled (sized_of_readEntry hlookup) hrun
  have hflush := hlead.trans (writeBundles_leads h.closeLimits hlead.bundled)
  have hfinal := events_open hflush.events hopened
  obtain ⟨more, bytes, rest'', hlogs⟩ := events_logs hflush.events hkept
  have hfinalOpen : final.binlog.mode.isSome = true := by rw [hfinal, hopened]
  refine ⟨head, kept, rest, new ++ more, hvalid, hfound, hsplit, hlog, ?_, ?_, ?_, hfinalOpen,
    (events_frame hflush.events).1.trans hready, fun hrepeats => ?_⟩
  · intro r hr
    exact (List.mem_append.mp hr).elim (hfits r) (hlogs.fits r)
  · have hkept' := hlogs.log
    rw [hlogs.rest hfinalOpen, hrest hopened, hlogs.encoded, List.drop_drop, List.append_assoc,
      List.append_assoc, ← List.length_append, ← encodeLog_append] at hkept'
    exact hkept'
  · rw [events_open hlead.events hopened, hopened]
  · have hrefines : Refines settings head (acceptedRecords settings found ++ new) db₀ := by
      refine ⟨htime, fun key => ?_⟩
      rw [hremoving, if_neg List.not_mem_nil, hlookup, readEntry_eq_iff.mpr hrepeats, logEntry_append,
        hops]
      rfl
    rw [← List.append_assoc]
    exact hlogs.refines hfinalOpen hrefines

variable (folder) in
/-- What the next open reads from a closed log. -/
theorem reopen_eq {head kept rest : List UInt8} {rs : List Record} {reopenEnv : OpenEnv}
    (hopen : db.binlog.mode.isSome = true) (hready : (db.writeBundles settings closeEnv).ready = none)
    (hkept : Kept settings head kept rest rs (db.writeBundles settings closeEnv).binlog)
    (hreopen : reopenEnv.opened = .success) :
    ∃ db₂, (db.close settings closeEnv).openBinlog settings folder .readAppend reopenEnv =
        (.success, db₂) ∧
      ∀ key, db₂.memory.map.lookup key =
        readEntry settings (startTime head).relative (rs ++ decodeLog settings rest) key := by
  have hclose : db.close settings closeEnv =
      { binlog := (db.writeBundles settings closeEnv).binlog.close
        disk := (db.writeBundles settings closeEnv).disk } := by
    rw [close, if_pos hopen]
    simp [clearState, hready]
  have hcleared : (db.close settings closeEnv).Cleared := by rw [hclose]; rfl
  have hlogFile : (db.close settings closeEnv).logFile = head ++ (kept ++ rest) := by
    rw [hclose, ← List.append_assoc, ← hkept.data]
    rfl
  have hopened := openBinlog_readAppend folder hcleared hkept.header hlogFile
    (.inl (by rw [hclose])) hreopen
  refine ⟨_, hopened, fun key => ?_⟩
  rw [readBinlog_lookup rfl hkept.header, hkept.log.decodeLog_append]

theorem Kept.behind {head kept rest : List UInt8} {rs : List Record}
    (hkept : Kept settings head kept rest rs db.binlog) (hopen : db.binlog.mode.isSome = true) :
    db.behind = rest := by
  have hlen : 16 + kept.length = (head ++ kept).length := by
    simp only [List.length_append, hkept.header.length]
  rw [DatabaseObject.behind, hkept.data, hkept.cursor hopen, hlen, List.drop_left]

theorem TakesNothing.readEntry {bytes : List UInt8} (h : TakesNothing settings bytes)
    {rs : List Record} (hrs : ∀ r ∈ rs, r.Accepted settings = true) (relative : UInt64) (key : Key) :
    readEntry settings relative (rs ++ decodeLog settings bytes) key =
      logEntry settings relative rs key := by
  obtain ⟨haccepted, hrefused⟩ := acceptedRecords_of_all hrs (decodeLog settings bytes)
  rw [Cache.readEntry, haccepted, hrefused]
  unfold TakesNothing at h
  cases hlog : decodeLog settings bytes with
  | nil => simp [acceptedRecords, refusedRecord]
  | cons r ts =>
    obtain ⟨hbad, hparts⟩ := h r (by rw [hlog]; rfl)
    have hnone : acceptedRecords settings (r :: ts) = [] := by
      simp [acceptedRecords, hbad]
    have hfirst : refusedRecord settings (r :: ts) = some r := by
      simp [refusedRecord, hbad]
    rw [hnone, hfirst, List.append_nil, logEntry_append, Option.toList_some, logOps,
      List.flatMap_singleton, refusedRecord_ops hfirst, hparts]
    rfl

/-- Three entries, and the front of a record with three more. -/
def storedThree : List Record := [.multiStore [sampleStore 1 5, sampleStore 2 5, sampleStore 3 5]]

def tornThree : Record := .multiStore [sampleStore 4 5, sampleStore 5 5, sampleStore 6 5]

def tornFiles : DatabaseObject := sampleLog storedThree ((tornThree.encode true).take 112)

def removeThree : List Call := [1, 2, 3].map fun n => .remove (.granted 300 []) (sampleKey n)

/-- The database after `removeThree`. -/
def afterRemoveThree (files : DatabaseObject) : DatabaseObject :=
  removeThree.foldl (fun db call => ((db.perform .initial (fun _ => 0) call).map Prod.snd).getD db)
    (files.openBinlog .initial [] .readAppend (.granted 200)).2

/-- A session on some files that removes the three entries. -/
theorem session_removeThree (files : DatabaseObject) (hcleared : files.Cleared)
    (hopened : (files.openBinlog .initial [] .readAppend (.granted 200)).1 = .success) :
    Session .initial (fun _ => 0) files [] .readAppend (.granted 200)
      (files.openBinlog .initial [] .readAppend (.granted 200)).2 removeThree
      (afterRemoveThree files) (.granted 300 []) where
  cleared := hcleared
  notRead := by simp
  opened := by rw [← hopened]
  openLimits _ := rfl
  run := ⟨_, rfl⟩
  callLimits := by
    simp only [removeThree, List.map_cons, List.map_nil, List.mem_cons, List.not_mem_nil, or_false,
      forall_eq_or_imp, forall_eq]
    exact ⟨⟨rfl, fun _ => rfl, fun _ => rfl⟩, ⟨rfl, fun _ => rfl, fun _ => rfl⟩,
      ⟨rfl, fun _ => rfl, fun _ => rfl⟩⟩
  closeLimits := ⟨rfl, fun _ => rfl, fun _ => rfl⟩

variable (settings) in
/-- The reader takes these records from the body of a log, and no part of another. -/
def HandsOver (body : List UInt8) (rs : List Record) : Prop :=
  acceptedRecords settings (decodeLog settings body) = rs ∧
    ∀ r, refusedRecord settings (decodeLog settings body) = some r → r.goodParts settings = []

theorem handsOver_iff {kept bytes : List UInt8} {rs : List Record} (h : IsLog settings kept rs) :
    HandsOver settings (kept ++ bytes) rs ↔ TakesNothing settings bytes := by
  obtain ⟨haccepted, hrefused⟩ := acceptedRecords_of_all h.accepted (decodeLog settings bytes)
  unfold HandsOver TakesNothing
  rw [h.decodeLog_append, haccepted, hrefused, List.append_right_eq_self]
  cases hlog : decodeLog settings bytes with
  | nil => simp [acceptedRecords, refusedRecord]
  | cons r ts =>
    cases hr : r.Accepted settings <;> simp [acceptedRecords, refusedRecord, hr]

/-- The bytes of some records in front of a log are determined by the records. -/
theorem IsLog.front_unique {kept kept' rest rest' : List UInt8} {rs : List Record}
    (h : IsLog settings kept rs) (h' : IsLog settings kept' rs) (heq : kept ++ rest = kept' ++ rest') :
    kept = kept' ∧ rest = rest' := by
  have hmore : ∀ {kept kept' more : List UInt8}, IsLog settings kept rs → IsLog settings kept' rs →
      kept' = kept ++ more → more = [] := by
    intro kept kept' more h h' hsplit
    subst hsplit
    have hdecoded := h'.decoded
    rw [h.decodeLog_append, List.append_right_eq_self, decodeLog, List.map_eq_nil_iff] at hdecoded
    have hwhole := h'.whole
    rw [((readRecordSize_stable settings).cut_append kept more).2, h.whole, List.nil_append] at hwhole
    have hflat := (readRecordSize_stable settings).flatten_records more
    rw [hdecoded, hwhole] at hflat
    exact hflat.symm
  rcases List.append_eq_append_iff.mp heq with ⟨more, hsplit, hrest⟩ | ⟨more, hsplit, hrest⟩
  · have hnil := hmore h h' hsplit
    subst hnil
    exact ⟨by simpa using hsplit.symm, by simpa using hrest⟩
  · have hnil := hmore h' h hsplit
    subst hnil
    exact ⟨by simpa using hsplit, by simpa using hrest.symm⟩

/-- The front of a record that is cut off is no record. -/
theorem decodeLog_take_encode {r : Record} (hfits : r.Fits settings) {n : ℕ}
    (hn : n < (r.encode settings.trackEstimatedTime).length) :
    decodeLog settings ((r.encode settings.trackEstimatedTime).take n) = [] := by
  set bytes := r.encode settings.trackEstimatedTime with hbytes
  have hfull : readRecordSize settings bytes = .exact bytes.length := hfits.size_eq
  have hnone : ¬HasRecord (readRecordSize settings) (bytes.take n) := by
    rintro ⟨size, hsize, hle⟩
    have happend := (readRecordSize_stable settings).exact_append (bytes.drop n) hsize
    rw [List.take_append_drop, hfull, FrontSize.exact.injEq] at happend
    rw [List.length_take] at hle
    omega
  rw [decodeLog, records_of_not_hasRecord hnone, List.map_nil]

end Bettergram.Storage.Cache
