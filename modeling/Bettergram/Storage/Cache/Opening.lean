import Bettergram.Storage.Cache.DatabaseObject
import Bettergram.Storage.Cache.LogReading
import Bettergram.Storage.Cache.Replay

/-! # Opening a log

A log file is a header, the records that the reader accepts, and whatever is
behind them. Opening it replays the accepted records, applies a refused one as
far as its good parts go, and leaves the cursor behind the accepted ones.
-/

namespace Bettergram.Storage.Cache
open Foundation

variable (settings : Settings)

/-- Bytes that are accepted records from end to end. -/
structure IsLog (bytes : List UInt8) (rs : List Record) : Prop where
  whole : leftover (readRecordSize settings) bytes = []
  decoded : decodeLog settings bytes = rs
  accepted : ∀ r ∈ rs, r.Accepted settings = true

variable {settings}

theorem IsLog.nil : IsLog settings [] [] := ⟨rfl, rfl, by simp⟩

theorem IsLog.decodeLog_append {bytes : List UInt8} {rs : List Record} (h : IsLog settings bytes rs)
    (rest : List UInt8) : decodeLog settings (bytes ++ rest) = rs ++ decodeLog settings rest := by
  obtain ⟨hcut, -⟩ := (readRecordSize_stable settings).cut_append bytes rest
  rw [decodeLog, hcut, List.map_append, h.whole, List.nil_append, ← h.decoded]
  rfl

theorem IsLog.append {bytes more : List UInt8} {rs ts : List Record} (h : IsLog settings bytes rs)
    (hmore : IsLog settings more ts) : IsLog settings (bytes ++ more) (rs ++ ts) where
  whole := by
    rw [((readRecordSize_stable settings).cut_append bytes more).2, h.whole, List.nil_append,
      hmore.whole]
  decoded := by rw [h.decodeLog_append, hmore.decoded]
  accepted r hr := (List.mem_append.mp hr).elim (h.accepted r) (hmore.accepted r)

theorem IsLog.length_mod {bytes : List UInt8} {rs : List Record} (h : IsLog settings bytes rs) :
    bytes.length % kBlockSize = 0 := by
  have hmod := (readRecordSize_stable settings).length_leftover_mod
    (fun hsize => readRecordSize_mod settings hsize) bytes
  rw [h.whole] at hmod
  exact hmod.symm

variable (settings) in
theorem IsLog.of_sizes (bs : List (List UInt8))
    (hbs : ∀ b ∈ bs, readRecordSize settings b = .exact b.length)
    (hacc : ∀ b ∈ bs, (Record.decode settings.trackEstimatedTime b).Accepted settings = true) :
    IsLog settings bs.flatten (bs.map (Record.decode settings.trackEstimatedTime)) := by
  obtain ⟨hrecords, hleft⟩ := (readRecordSize_stable settings).cut_flatten hbs []
  rw [List.append_nil] at hrecords hleft
  refine ⟨hleft, by rw [decodeLog, hrecords]; simp, fun r hr => ?_⟩
  obtain ⟨b, hb, rfl⟩ := List.mem_map.mp hr
  exact hacc b hb

theorem IsLog.encode {r : Record} (hfits : r.Fits settings) (hacc : r.Accepted settings = true) :
    IsLog settings (r.encode settings.trackEstimatedTime) [r] := by
  have h := IsLog.of_sizes settings [r.encode settings.trackEstimatedTime]
    (by simpa using hfits.size_eq) (by simpa [Record.decode_encode hfits] using hacc)
  simpa [Record.decode_encode hfits] using h

theorem IsLog.encodeLog {rs : List Record} (hfits : ∀ r ∈ rs, r.Fits settings)
    (hacc : ∀ r ∈ rs, r.Accepted settings = true) : IsLog settings (encodeLog settings rs) rs := by
  induction rs with
  | nil => exact .nil
  | cons r rs ih =>
    exact (IsLog.encode (hfits r (by simp)) (hacc r (by simp))).append
      (ih (fun t ht => hfits t (by simp [ht])) (fun t ht => hacc t (by simp [ht])))

/-- The reader only hands over access blocks when time is tracked. -/
theorem readable_of_mem_decodeLog (bytes : List UInt8) {r : Record}
    (hr : r ∈ decodeLog settings bytes) : r.Readable settings := by
  obtain ⟨b, hb, rfl⟩ := List.mem_map.mp hr
  have hsize := (readRecordSize_stable settings).size_of_mem_records hb
  unfold Record.decode
  dsimp only
  cases b with
  | nil => cases hsize
  | cons type b =>
    simp only [readRecordSize, List.head?_cons] at hsize
    simp only [List.headD_cons]
    by_cases h₁ : type = 0x01
    · simp [h₁, Record.Readable]
    by_cases h₂ : type = 0x02
    · simp [h₂, Record.Readable]
    by_cases h₃ : type = 0x03
    · simp [h₃, Record.Readable]
    by_cases h₄ : type = 0x04 ∧ settings.trackEstimatedTime
    · simp [h₁, h₂, h₃, Record.Readable, h₄.2]
    · rw [if_neg h₁, if_neg h₂, if_neg h₃, if_neg h₄] at hsize
      cases hsize

theorem IsLog.readable {bytes : List UInt8} {rs : List Record} (h : IsLog settings bytes rs) :
    ∀ r ∈ rs, r.Readable settings := fun _ hr =>
  readable_of_mem_decodeLog bytes (h.decoded ▸ hr)

variable (settings) in
theorem acceptedRecords_append_refused_readable (bytes : List UInt8) :
    ∀ r ∈ acceptedRecords settings (decodeLog settings bytes) ++
      (refusedRecord settings (decodeLog settings bytes)).toList, r.Readable settings := by
  intro r hr
  rw [List.mem_append, Option.mem_toList] at hr
  apply readable_of_mem_decodeLog bytes
  rcases hr with hr | hr
  · exact (List.takeWhile_sublist _).subset hr
  · exact (List.dropWhile_sublist _).subset (List.mem_of_mem_head? hr)

variable (settings) in
/-- A log body is the accepted records and the rest. -/
theorem exists_accepted (body : List UInt8) :
    let rs := decodeLog settings body
    ∃ rest, IsLog settings
        (((records (readRecordSize settings) body).take
          (acceptedRecords settings rs).length).flatten) (acceptedRecords settings rs) ∧
      body = ((records (readRecordSize settings) body).take
        (acceptedRecords settings rs).length).flatten ++ rest := by
  intro rs
  set bs := records (readRecordSize settings) body with hbs
  set n := (acceptedRecords settings rs).length with hn
  have hmap : (bs.take n).map (Record.decode settings.trackEstimatedTime) =
      acceptedRecords settings rs := by
    rw [List.map_take]
    exact (List.prefix_iff_eq_take.mp (List.takeWhile_prefix _)).symm
  have hlog := IsLog.of_sizes settings (bs.take n)
    (fun b hb => (readRecordSize_stable settings).size_of_mem_records (List.mem_of_mem_take hb))
    (fun b hb => by
      have hmem : Record.decode settings.trackEstimatedTime b ∈ acceptedRecords settings rs :=
        hmap ▸ List.mem_map_of_mem hb
      simpa using List.mem_takeWhile_imp hmem)
  rw [hmap] at hlog
  have hbody := (readRecordSize_stable settings).flatten_records body
  refine ⟨(bs.drop n).flatten ++ leftover (readRecordSize settings) body, hlog, ?_⟩
  rw [← List.append_assoc, ← List.flatten_append, List.take_append_drop, hbody]

/-! ## The header -/

/-- The bytes of a header that `readHeader` takes. -/
structure ValidHead (settings : Settings) (head : List UInt8) : Prop where
  length : head.length = 16
  format : (BasicHeader.decode head).format = 0
  tracked : settings.trackEstimatedTime = (BasicHeader.decode head).tracked

/-- The clock starts at the time in the header. -/
def startTime (head : List UInt8) : EstimatedTimePoint where
  relative := (BasicHeader.decode head).systemTime.toUInt64
  system := (BasicHeader.decode head).systemTime

def startMemory (head : List UInt8) : Memory := { time := startTime head }

theorem startMemory_atTime (head : List UInt8) :
    (startMemory head).AtTime settings (startTime head).relative := fun _ => rfl

namespace DatabaseObject

/-- Nothing is open, as before the first `open` and after every `close`. -/
def Cleared (db : DatabaseObject) : Prop := db.clearState = db

/-- The log that `openBinlog` will find. -/
def logFile (db : DatabaseObject) : List UInt8 := db.ready.getD db.binlog.data

/-- The database between its header and its records. -/
def headed (folder : List Char) (disk : List Char → Option (List UInt8)) (head body : List UInt8)
    (mode : OpenMode) : DatabaseObject where
  path := folder
  memory := startMemory head
  binlog := { data := head ++ body, cursor := 16, mode := some mode }
  disk := disk

variable {folder : List Char} {disk : List Char → Option (List UInt8)} {head body : List UInt8}
  {mode : OpenMode}

variable (settings folder disk body mode) in
/-- Replaying the log behind a header. -/
theorem replayBinlog_headed (hhead : head.length = 16) :
    let rs := decodeLog settings body
    ∃ kept rest, body = kept ++ rest ∧ IsLog settings kept (acceptedRecords settings rs) ∧
      (headed folder disk head body mode).replayBinlog settings =
        { headed folder disk head body mode with
          binlog := { data := head ++ body, cursor := 16 + kept.length, mode := some mode }
          memory := (startMemory head).replay settings
            (acceptedRecords settings rs ++ (refusedRecord settings rs).toList) } := by
  intro rs
  obtain ⟨rest, hlog, hbody⟩ := exists_accepted settings body
  refine ⟨_, rest, hbody, hlog, ?_⟩
  set db := headed folder disk head body mode with hdb
  set wrapper := BinlogWrapper.create db.binlog 0 with hwrapper
  have hsize : wrapper.till = 16 + (body.length - body.length % 16) := by
    simp only [hwrapper, BinlogWrapper.create, PlainFile.size, hdb, headed, kBlockSize]
    simp only [Option.isSome_some, if_true, List.length_append, hhead]
    omega
  have hunread : wrapper.unread = body.take (body.length - body.length % kBlockSize) := by
    have hdrop : (head ++ body).drop 16 = body := by rw [← hhead, List.drop_left]
    simp only [BinlogWrapper.unread, hsize]
    simp only [hwrapper, BinlogWrapper.create, hdb, headed, List.nil_append, hdrop,
      Nat.add_sub_cancel_left, kBlockSize]
  have hreading : Reading settings wrapper := by
    refine {
      running := rfl
      incomplete := ?_
      undecided := by simp [hwrapper, BinlogWrapper.create, readRecordSize]
      part_whole := rfl
      part_le := Nat.zero_le _
      cursor_whole := by simp [hwrapper, BinlogWrapper.create, hdb, headed, kBlockSize]
      till_whole := by rw [hsize, kBlockSize]; omega
      cursor_le := by rw [hsize]; exact Nat.le_add_right _ _
      till_le := ?_ }
    · rintro ⟨n, hn, -⟩
      cases hn
    · rw [hsize]
      change _ ≤ (head ++ body).length
      rw [List.length_append, hhead]
      omega
  have hrecords : records (readRecordSize settings) wrapper.unread =
      records (readRecordSize settings) body := by
    rw [hunread]
    exact (readRecordSize_stable settings).records_whole (by decide)
      (fun h => readRecordSize_mod settings h) body
  have hfuel : wrapper.till - wrapper.binlog.cursor + 1 < wrapper.till + 2 := by omega
  obtain ⟨hmemory, hbinlog⟩ := hreading.readAll
    (fun bytes (m : Memory) => m.handleRecord settings bytes) hfuel db.memory
  rw [hrecords, feed_handleRecord] at hmemory hbinlog
  have hreplay : db.replayBinlog settings =
      { db with
        binlog := (BinlogReader.readAll settings (fun bytes m => m.handleRecord settings bytes)
          (wrapper.till + 2) wrapper db.memory).1.binlog
        memory := (BinlogReader.readAll settings (fun bytes m => m.handleRecord settings bytes)
          (wrapper.till + 2) wrapper db.memory).2 } := rfl
  rw [hreplay, hmemory, hbinlog]
  rfl

theorem readHeader_headed (hhead : ValidHead settings head) :
    let db : DatabaseObject := {
      disk := disk
      binlog := { data := head ++ body, cursor := 0, mode := some mode } }
    db.readHeader settings = (true, headed [] disk head body mode) := by
  intro db
  have hpeek : db.binlog.peek 16 = head := by
    have hle : db.binlog.cursor + 16 ≤ db.binlog.data.length := by
      change 0 + 16 ≤ (head ++ body).length
      simp [hhead.length]
    rw [(peek_of_le rfl hle).1]
    change ((head ++ body).drop 0).take 16 = head
    rw [List.drop_zero, ← hhead.length, List.take_left]
  have hread : BinlogWrapper.readHeader settings db.binlog =
      (some (BasicHeader.decode head), db.binlog.seek 16) := by
    have hoffset : db.binlog.offset = 0 := rfl
    simp only [BinlogWrapper.readHeader, hoffset, PlainFile.read, hpeek, hhead.length, hhead.format,
      hhead.tracked]
    rfl
  rw [readHeader, hread]
  rfl

variable (settings disk) in
theorem validHead_of_readHeader (hhead : head.length = 16) (body : List UInt8) (mode : OpenMode)
    (h : (({
      disk := disk
      binlog := { data := head ++ body, cursor := 0, mode := some mode } } :
      DatabaseObject).readHeader settings).1 = true) : ValidHead settings head := by
  set file : PlainFile := { data := head ++ body, cursor := 0, mode := some mode } with hfile
  have hpeek : file.peek 16 = head := by
    have hle : file.cursor + 16 ≤ file.data.length := by
      simp [hfile, hhead]
    rw [(peek_of_le rfl hle).1, hfile, List.drop_zero, ← hhead, List.take_left]
  have hoffset : file.offset = 0 := rfl
  unfold readHeader BinlogWrapper.readHeader at h
  simp only [hoffset, PlainFile.read, hpeek, hhead, ne_eq, not_true_eq_false, if_false] at h
  split at h
  · next heq =>
    split at heq
    · next hgood => exact ⟨hhead, hgood.2.1, hgood.2.2⟩
    · cases heq
  · cases h

/-- Once the file is open, the header decides. -/
theorem openBinlog_eq {files : DatabaseObject} {mode : File.Mode} {env : OpenEnv}
    (hcleared : files.Cleared) (hmoved : files.ready = none ∨ env.moved = true)
    (hopened : env.opened = .success) :
    let db : DatabaseObject := {
      disk := files.disk
      binlog := openFile mode { files.binlog with data := files.logFile } }
    let header := if mode = .read ∨ (mode = .readAppend ∧ 0 < db.binlog.size) then
      db.readHeader settings else db.writeHeader settings env
    files.openBinlog settings folder mode env =
      if header.1 then (.success, { header.2 with path := folder }.readBinlog settings env)
      else (.failed, header.2) := by
  intro db header
  obtain ⟨path, memory, removing, accessed, stale, binlog, ready, disk⟩ := files
  simp only [Cleared, clearState, mk.injEq] at hcleared
  obtain ⟨rfl, rfl, rfl, rfl, rfl, -⟩ := hcleared
  have hready : ¬(ready.isSome = true ∧ (!env.moved) = true) := by
    rcases hmoved with hnone | hmoved
    · dsimp only at hnone
      simp [hnone]
    · simp [hmoved]
  have hheader : header = if mode = .read ∨ (mode = .readAppend ∧ 0 < db.binlog.size) then
    db.readHeader settings else db.writeHeader settings env := rfl
  clear_value header
  unfold openBinlog
  rw [if_neg hready]
  cases ready with
  | none =>
    dsimp only
    rw [if_neg (by simp [hopened])]
    have hdb : db = { disk := disk, binlog := openFile mode binlog } := rfl
    rw [hdb] at hheader
    dsimp only at hheader ⊢
    rw [← hheader]
    obtain ⟨_ | _, opened⟩ := header <;> rfl
  | some content =>
    dsimp only
    rw [if_neg (by simp [hopened])]
    have hdb : db = { disk := disk, binlog := openFile mode { binlog with data := content } } := rfl
    rw [hdb] at hheader
    dsimp only at hheader ⊢
    rw [← hheader]
    obtain ⟨_ | _, opened⟩ := header <;> rfl

theorem openBinlog_failed {files : DatabaseObject} {mode : File.Mode} {env : OpenEnv}
    (h : (files.openBinlog settings folder mode env).1 = .success) :
    (files.ready = none ∨ env.moved = true) ∧ env.opened = .success := by
  unfold openBinlog at h
  split at h
  · cases h
  · next hready =>
    dsimp only at h
    split at h
    · next hopened =>
      exact absurd h hopened
    · next hopened =>
      refine ⟨?_, by simpa using hopened⟩
      cases hr : files.ready with
      | none => exact .inl rfl
      | some content => right; simpa [hr] using hready

variable (folder) in
/-- A log with a good header can be opened, whatever is behind the header. -/
theorem openBinlog_readAppend {files : DatabaseObject} {env : OpenEnv} (hcleared : files.Cleared)
    (hhead : ValidHead settings head) (hlog : files.logFile = head ++ body)
    (hmoved : files.ready = none ∨ env.moved = true) (hopened : env.opened = .success) :
    files.openBinlog settings folder .readAppend env =
      (.success, (headed folder files.disk head body .readWrite).readBinlog settings env) := by
  have hfile : openFile .readAppend { files.binlog with data := files.logFile } =
      { data := head ++ body, cursor := 0, mode := some .readWrite } := by
    rw [hlog]
    rfl
  have hsize : 0 < PlainFile.size { data := head ++ body, cursor := 0, mode := some .readWrite } := by
    simp only [PlainFile.size, Option.isSome_some, if_true, List.length_append, hhead.length,
      kBlockSize]
    omega
  rw [openBinlog_eq hcleared hmoved hopened]
  simp only [hfile, hsize, and_self, or_true, if_true, readHeader_headed hhead]
  rfl

variable (settings) in
/-- The header that `writeHeader` writes is a good one. -/
theorem validHead_encode (header : BasicHeader) (hformat : header.format = 0)
    (hflags : header.flags = if settings.trackEstimatedTime then BasicHeader.kTrackEstimatedTime else 0) :
    ValidHead settings header.encode ∧
      (BasicHeader.decode header.encode).systemTime = header.systemTime := by
  have hlength : header.encode.length = 16 := by simp [BasicHeader.encode]
  have hsmall : header.flags < 256 ^ 3 := by
    rw [hflags]
    split <;> simp [BasicHeader.kTrackEstimatedTime]
  have hfield : field 1 3 header.encode = header.flags := by
    rw [field_of_drop header.flags
      (leBytes 4 header.systemTime.toNat ++ leBytes 4 0 ++ leBytes 4 0)
      (by simp [BasicHeader.encode]), Nat.mod_eq_of_lt hsmall]
  have hsystem : field 4 4 header.encode = header.systemTime.toNat := by
    have hlt := header.systemTime.toNat_lt
    have hdrop : header.encode.drop 4 =
        leBytes 4 header.systemTime.toNat ++ (leBytes 4 0 ++ leBytes 4 0) := by
      have hshape : header.encode = (header.format :: leBytes 3 header.flags) ++
          (leBytes 4 header.systemTime.toNat ++ (leBytes 4 0 ++ leBytes 4 0)) := by
        simp [BasicHeader.encode]
      rw [hshape]
      exact List.drop_left' (by simp)
    rw [field_of_drop _ _ hdrop, Nat.mod_eq_of_lt (by omega)]
  refine ⟨⟨hlength, hformat, ?_⟩, ?_⟩
  · simp only [BasicHeader.tracked, BasicHeader.decode, hfield, hflags]
    cases settings.trackEstimatedTime <;> rfl
  · simp only [BasicHeader.decode, hsystem]
    exact UInt32.ofNat_toNat

theorem writeHeader_headed {env : OpenEnv} {data : List UInt8} (hdata : data.length < 16)
    {db : DatabaseObject}
    (h : ({ disk := disk, binlog := { data := data, cursor := 0, mode := some mode } } :
      DatabaseObject).writeHeader settings env = (true, db)) :
    ∃ head, ValidHead settings head ∧ db = headed [] disk head [] mode := by
  set header : BasicHeader := {
    flags := if settings.trackEstimatedTime then BasicHeader.kTrackEstimatedTime else 0
    systemTime := UInt32.ofNat (if settings.trackEstimatedTime then getUnixtime env.headerClock
      else 0) } with hheader
  obtain ⟨hvalid, hsystem⟩ := validHead_encode settings header rfl rfl
  refine ⟨header.encode, hvalid, ?_⟩
  have hwrite : ∀ file : PlainFile, ({ disk := disk, binlog := file } : DatabaseObject).writeHeader
      settings env = ((file.writeOpen env.headerLimit header.encode).1,
        { ({ disk := disk, binlog := file } : DatabaseObject).setTime header.systemTime with
          binlog := (file.writeOpen env.headerLimit header.encode).2 }) := fun _ => rfl
  rw [hwrite] at h
  rcases PlainFile.writeOpen_cases env.headerLimit header.encode
    { data := data, cursor := 0, mode := some mode } with ⟨-, heq⟩ | ⟨count, -, heq⟩
  · rw [heq] at h
    rw [← (Prod.mk.inj h).2]
    have hdrop : data.drop 16 = [] := List.drop_of_length_le (by omega)
    simp [headed, setTime, startMemory, startTime, hsystem, overwrite, hvalid.length, hdrop]
  · rw [heq] at h
    cases h

/-- Every successful open starts from a good header; only `ReadAppend` finds records behind it. -/
theorem openBinlog_success {files db : DatabaseObject} {fileMode : File.Mode} {env : OpenEnv}
    (hcleared : files.Cleared) (hmode : fileMode ≠ .read)
    (h : files.openBinlog settings folder fileMode env = (.success, db)) :
    ∃ head body mode, ValidHead settings head ∧
      db = (headed folder files.disk head body mode).readBinlog settings env ∧
      if fileMode = .readAppend ∧ 16 ≤ files.logFile.length then files.logFile = head ++ body
      else body = [] := by
  obtain ⟨hmoved, hopened⟩ := openBinlog_failed (congrArg Prod.fst h)
  rw [openBinlog_eq hcleared hmoved hopened] at h
  have hfresh : ∀ (data : List UInt8) (mode : OpenMode) {opened : Bool × DatabaseObject},
      data.length < 16 →
      ({ disk := files.disk, binlog := { data := data, cursor := 0, mode := some mode } } :
        DatabaseObject).writeHeader settings env = opened →
      (if opened.1 then (File.Result.success,
        { opened.2 with path := folder }.readBinlog settings env) else (.failed, opened.2)) =
          (.success, db) →
      ∃ head, ValidHead settings head ∧
        db = (headed folder files.disk head [] mode).readBinlog settings env := by
    intro data mode opened hdata hwrite hend
    obtain ⟨_ | _, opened⟩ := opened
    · cases hend
    · obtain ⟨head, hhead, rfl⟩ := writeHeader_headed hdata hwrite
      exact ⟨head, hhead, (Prod.mk.inj hend).2.symm⟩
  cases fileMode with
  | read => exact absurd rfl hmode
  | write =>
    obtain ⟨head, hhead, hdb⟩ := hfresh [] .writeOnly (by simp) rfl
      (by simpa [openFile, PlainFile.created] using h)
    exact ⟨head, [], _, hhead, hdb, by simp⟩
  | readAppend =>
    have hfile : openFile .readAppend { files.binlog with data := files.logFile } =
      { data := files.logFile, cursor := 0, mode := some .readWrite } := rfl
    by_cases hlen : 16 ≤ files.logFile.length
    · set head := files.logFile.take 16 with hhead
      have hlog : files.logFile = head ++ files.logFile.drop 16 := (List.take_append_drop _ _).symm
      have hheadlen : head.length = 16 := List.length_take_of_le hlen
      have hvalid := validHead_of_readHeader settings files.disk hheadlen
        (files.logFile.drop 16) .readWrite
      have hsize : 0 < PlainFile.size
          { data := files.logFile, cursor := 0, mode := some .readWrite } := by
        simp only [PlainFile.size, Option.isSome_some, if_true, kBlockSize]
        omega
      simp only [hfile, hsize, and_self, or_true, if_true, ← hlog] at h hvalid
      have hgood : ValidHead settings head := by
        apply hvalid
        by_contra hbad
        rw [if_neg hbad] at h
        cases h
      have hopen := openBinlog_readAppend folder hcleared hgood hlog hmoved hopened
      rw [openBinlog_eq hcleared hmoved hopened] at hopen
      simp only [hfile, hsize, and_self, or_true, if_true] at hopen
      rw [hopen] at h
      exact ⟨head, _, _, hgood, (Prod.mk.inj h).2.symm, by simpa [hlen] using hlog⟩
    · obtain ⟨head, hhead, hdb⟩ := hfresh files.logFile .readWrite (by omega) rfl
        (by
          have hsize : ¬0 < PlainFile.size
              { data := files.logFile, cursor := 0, mode := some .readWrite } := by
            simp only [PlainFile.size, Option.isSome_some, if_true, kBlockSize]
            omega
          simpa [hfile, hsize] using h)
      exact ⟨head, [], _, hhead, hdb, by simp [hlen]⟩

end DatabaseObject

end Bettergram.Storage.Cache
