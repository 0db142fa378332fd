import Bettergram.Storage.Cache.CompactedLog

/-! # What is kept over closing, compaction and loss

As long as the log is open, replaying its file gives the map in memory, up to the
removals that are still bundled. So the files of a running database may be opened
at any moment, and a cache that is closed and opened again is still the same map.
-/

namespace Bettergram.Storage.Cache
open Foundation DatabaseObject

variable {settings : Settings} {xxh32 : List UInt8 → UInt32} {head kept : List UInt8}
  {rs : List Record} {db db' : DatabaseObject} {s s' : System}

/-! ## A closed log -/

theorem writeBinlog_closed {binlog : PlainFile} (hclosed : binlog.mode = none)
    (limits : Fin 2 → Option ℕ) (header list : List UInt8) :
    writeBinlog limits header list binlog = (false, binlog) := by
  simp [writeBinlog, PlainFile.writeOpen, hclosed]

/-- No event opens a log. -/
theorem Event.closed {ok : Option ℕ → Prop} (h : Event settings ok db db')
    (hclosed : db.binlog.mode = none) : db'.binlog.mode = none := by
  cases h with
  | store clock record hlimit htime hpos hsize =>
    have hforget : (db.forget record.key).binlog.mode = none := hclosed
    simp [writeStore, PlainFile.writeOpen, hforget, PlainFile.close]
  | @removes limits hlimits hne hlen =>
    rw [writeMultiRemove_of_ne limits hne, writeBinlog_closed hclosed]
    rfl
  | accesses clock hlimits htracked hlen =>
    rw [writeMultiAccessBlock_eq]
    dsimp only
    rw [writeBinlog_closed hclosed]
    rfl
  | rehash order =>
    unfold DatabaseObject.rehash
    split <;> exact hclosed
  | _ => exact hclosed

theorem events_closed {ok : Option ℕ → Prop}
    (h : Relation.ReflTransGen (Event settings ok) db db') (hclosed : db.binlog.mode = none) :
    db'.binlog.mode = none := by
  induction h with
  | refl => exact hclosed
  | tail _ hevent ih => exact hevent.closed ih

theorem opened_before {ok : Option ℕ → Prop}
    (h : Relation.ReflTransGen (Event settings ok) db db') (hopen : db'.binlog.mode.isSome = true) :
    db.binlog.mode.isSome = true := by
  by_contra hclosed
  rw [events_closed h (by simpa using hclosed)] at hopen
  cases hopen

/-- A compactor that is through has read something. -/
def CompactorObject.Through (c : CompactorObject) : Prop := c.state ≠ .finished 0

theorem CompactorObject.parseChunk_through {c c' : CompactorObject} {log : List UInt8}
    (h : c.parseChunk settings log = some c') : c'.Through := by
  unfold CompactorObject.parseChunk at h
  dsimp only at h
  split at h
  · cases h
  · split at h
    · cases h
      exact CompactorState.noConfusion
    · cases h
      exact CompactorState.noConfusion

theorem CompactorStep.through {c c' : CompactorObject} (h : CompactorStep settings db c c') :
    c'.Through := by
  cases h with
  | start hstate hstart =>
    unfold CompactorObject.start at hstart
    dsimp only at hstart
    split at hstart
    · cases hstart
    · split at hstart
      · cases hstart
      · exact CompactorObject.parseChunk_through hstart
  | getManyRaw hstate => exact CompactorState.noConfusion
  | processValues hstate hprocess => exact CompactorObject.parseChunk_through hprocess
  | catchUp hstate hfinalize =>
    unfold CompactorObject.finalize at hfinalize
    split at hfinalize
    · cases hfinalize
    · split at hfinalize
      · cases hfinalize
      · next hpos =>
        split at hfinalize
        · cases hfinalize
          exact fun h => hpos (CompactorState.finished.inj h)
        · cases hfinalize
          exact CompactorState.noConfusion

/-- A closed log is not replaced. -/
theorem compactorDone_closed {env : DoneEnv} {compact : List UInt8} {excess : ℤ} {till : ℕ}
    (hclosed : db.binlog.mode = none) (htill : till ≠ 0) :
    (db.compactorDone settings env compact excess till).2.binlog.mode = none := by
  by_contra hopen
  rcases compactorDone_cases (Option.isSome_iff_ne_none.mpr hopen) with heq | ⟨copied, hcaught, -⟩
  · rw [heq] at hopen
    exact hopen hclosed
  · have hsize : db.binlog.size = 0 := by rw [PlainFile.size, hclosed]; rfl
    rw [hsize, if_neg htill, CompactorObject.catchUp] at hcaught
    split at hcaught
    · next hend =>
      obtain ⟨hzero, -⟩ := Prod.mk.inj (Option.some.inj hcaught)
      omega
    · split at hcaught
      · cases hcaught
      · obtain ⟨_, -, heq⟩ := Option.map_eq_some_iff.mp hcaught
        obtain ⟨hzero, -⟩ := Prod.mk.inj heq
        omega

/-! ## The log of a running system -/

/-- While the log is open it says what the map is, and the compactor is on its way. -/
structure Logged (settings : Settings) (head : List UInt8) (s : System) : Prop where
  steady : Steady settings s.database
  through : ∀ c ∈ s.compactor, c.Through
  ready : s.database.ready = none
  log : s.database.binlog.mode.isSome = true → ∃ kept rs,
    Kept settings head kept [] rs s.database.binlog ∧ Refines settings head rs s.database ∧
      ∀ c ∈ s.compactor, Compacts settings head kept rs s.database c

theorem Logged.call (h : Logged settings head s) {call : Call} {answer : Answer}
    (hperform : s.database.perform settings xxh32 call = some (answer, db)) :
    Logged settings head { s with database := db } := by
  obtain ⟨hevents, hsteady⟩ := h.steady.perform hperform
  refine ⟨hsteady, h.through, (events_frame hevents).1.trans h.ready, fun hopen => ?_⟩
  obtain ⟨kept, rs, hkept, hrefines, hcompacts⟩ := h.log (opened_before hevents hopen)
  obtain ⟨bytes, new, happends⟩ := events_append hevents hkept hopen hrefines
  exact ⟨_, _, happends.log, happends.refines,
    fun c hc => (hcompacts c hc).appends hkept happends⟩

variable (db) in
/-- Replacing the log leaves no file to be put in its place. -/
theorem compactorDone_ready (env : DoneEnv) (compact : List UInt8)
    (excess : ℤ) (till : ℕ) : (db.compactorDone settings env compact excess till).2.ready = none := by
  unfold compactorDone
  dsimp only
  repeat' split
  all_goals rfl

theorem Logged.compactor (h : Logged settings head s) {act : Act}
    (hact : ∀ call, act ≠ .call call) (hstep : s.perform settings xxh32 act = some s') :
    Logged settings head s' := by
  have hsteady := h.steady.compactor hact hstep
  cases System.perform_step hstep with
  | call call hperform => exact absurd rfl (hact call)
  | wait hc => exact h
  | check hc =>
    refine ⟨hsteady, fun c hcheck => ?_, h.ready, fun hopen => ?_⟩
    · change s.database.checkCompactor settings = some c at hcheck
      unfold DatabaseObject.checkCompactor at hcheck
      split at hcheck
      · cases hcheck
        exact CompactorState.noConfusion
      · cases hcheck
    · obtain ⟨kept, rs, hkept, hrefines, -⟩ := h.log hopen
      exact ⟨kept, rs, hkept, hrefines, fun c hcheck => .check hkept hcheck⟩
  | work hc hwork =>
    refine ⟨hsteady, fun c hc' => ?_, h.ready, fun hopen => ?_⟩
    · cases hc'
      exact hwork.through
    · obtain ⟨kept, rs, hkept, hrefines, hcompacts⟩ := h.log hopen
      refine ⟨kept, rs, hkept, hrefines, fun c hc' => ?_⟩
      cases hc'
      exact (hcompacts _ hc).step hkept hrefines h.steady.2 hwork
  | fail =>
    refine ⟨hsteady, fun c hc => (by cases hc), rfl, fun hopen => ?_⟩
    obtain ⟨kept, rs, hkept, hrefines, -⟩ := h.log hopen
    exact ⟨kept, rs, hkept, ⟨hrefines.time, hrefines.entry⟩, fun c hc => (by cases hc)⟩
  | done env hc hstate =>
    refine ⟨hsteady, fun c hc => (by cases hc), compactorDone_ready _ env _ _ _, fun hopen => ?_⟩
    have hbefore : s.database.binlog.mode.isSome = true := by
      by_contra hclosed
      have htill := fun hzero : _ = 0 => h.through _ hc (hzero ▸ hstate)
      rw [compactorDone_closed (by simpa using hclosed) htill] at hopen
      cases hopen
    obtain ⟨kept, rs, hkept, hrefines, hcompacts⟩ := h.log hbefore
    obtain ⟨kept', rs', hkept', hrefines'⟩ :=
      (hcompacts _ hc).done hkept hbefore hrefines hstate hopen
    exact ⟨kept', rs', hkept', hrefines', fun c hc => (by cases hc)⟩

/-- A run keeps its log, whatever fails. -/
theorem Logged.history {allowed : Act → Prop} {start s : System} {history : List (Call × Answer)}
    (h : History settings xxh32 allowed start s history) (hlogged : Logged settings head start) :
    Logged settings head s := by
  induction h with
  | start => exact hlogged
  | call hs hallowed hperform ih => exact ih.call hperform
  | compactor hs hallowed hact hstep ih => exact ih.compactor hact hstep

/-! ## Opening the files of a running database -/

/-- The log that an open finds ends with its last record. -/
def CleanLog (settings : Settings) (mode : File.Mode) (files : DatabaseObject) : Prop :=
  ∃ rs, IsLog settings ((files.foundLog mode).drop 16) rs

/-- What is left of a database that goes away without closing. -/
def DatabaseObject.leftFiles (db : DatabaseObject) : DatabaseObject :=
  { db with binlog := db.binlog.close }.clearState

variable {files : DatabaseObject} {folder : List Char} {mode : File.Mode} {openEnv reopenEnv : OpenEnv}

/-- A log that ends with its last record is read whole. -/
theorem IsLog.readEntry {bytes : List UInt8} {rs : List Record} (h : IsLog settings bytes rs)
    (relative : UInt64) (key : Key) :
    readEntry settings relative (decodeLog settings bytes) key =
      logEntry settings relative rs key := by
  have hnothing : TakesNothing settings [] := by
    intro r hr
    rw [show decodeLog settings [] = [] from rfl] at hr
    cases hr
  have hread := hnothing.readEntry h.accepted relative key
  rw [show decodeLog settings [] = [] from rfl, List.append_nil] at hread
  rw [h.decoded, hread]

theorem Logged.opened (hcleared : files.Cleared) (hmode : mode ≠ .read)
    (hclean : CleanLog settings mode files)
    (h : files.openBinlog settings folder mode openEnv = (.success, db)) :
    ∃ head, Logged settings head { database := db } := by
  obtain ⟨head, fileMode, hvalid, -, hdb⟩ := openBinlog_found hcleared hmode h
  obtain ⟨rs, hlog⟩ := hclean
  set body := (files.foundLog mode).drop 16
  obtain ⟨kept, rest, new, rest', hbody, hkeptLog, hkept, hrest, hfits, hops, hlookup, htime, hremoving,
    -⟩ := readBinlog_headed hdb hvalid
  have hrecords : acceptedRecords settings (decodeLog settings body) = rs := by
    rw [hlog.decoded, acceptedRecords, List.takeWhile_eq_self_iff]
    exact hlog.accepted
  rw [hrecords] at hkeptLog hkept
  obtain ⟨rfl, rfl⟩ := hkeptLog.front_unique hlog (hbody.symm.trans (List.append_nil body).symm)
  refine ⟨head, .opened hcleared hmode h, fun c hc => (by cases hc),
    (readBinlog_frame hdb hvalid.length).1, fun hopen => ?_⟩
  obtain rfl : rest' = [] := by rw [hrest hopen, List.drop_nil]
  refine ⟨_, _, hkept, ⟨htime, fun key => ?_⟩, fun c hc => (by cases hc)⟩
  rw [hremoving, if_neg List.not_mem_nil, hlookup, hlog.readEntry, logEntry_append, hops]
  rfl

variable (folder) in
/-- Opening a log that ends with its last record. -/
theorem Kept.openBinlog (hcleared : files.Cleared) (hready : files.ready = none)
    (hkept : Kept settings head kept [] rs files.binlog) (hreopen : reopenEnv.opened = .success) :
    ∃ db₂, files.openBinlog settings folder .readAppend reopenEnv = (.success, db₂) ∧
      (∀ key, db₂.memory.map.lookup key = logEntry settings (startTime head).relative rs key) ∧
      CleanLog settings .readAppend files := by
  have hfile : files.logFile = head ++ kept := by
    rw [DatabaseObject.logFile, hready, Option.getD_none, hkept.data_eq]
  have hopened := openBinlog_readAppend folder hcleared hkept.header hfile (.inl hready) hreopen
  refine ⟨_, hopened, fun key => ?_, rs, ?_⟩
  · rw [readBinlog_lookup rfl hkept.header, hkept.log.readEntry]
  · rw [DatabaseObject.foundLog, if_pos rfl, hfile, ← hkept.header.length, List.drop_left]
    exact hkept.log

variable {history : List (Call × Answer)}

theorem noFiles_clean : CleanLog settings .readAppend noFiles := ⟨[], .nil⟩

/-- A run and what it leaves alone. -/
theorem History.path {allowed : Act → Prop} {start s : System}
    (h : History settings xxh32 allowed start s history) (hsteady : Steady settings start.database) :
    s.database.path = start.database.path := by
  have hboth : Steady settings s.database ∧ s.database.path = start.database.path := by
    induction h with
    | start => exact ⟨hsteady, rfl⟩
    | call hs hallowed hperform ih =>
      obtain ⟨hevents, hsteady'⟩ := ih.1.perform hperform
      exact ⟨hsteady', (events_frame hevents).2.trans ih.2⟩
    | compactor hs hallowed hact hstep ih =>
      refine ⟨ih.1.compactor hact hstep, Eq.trans ?_ ih.2⟩
      cases System.perform_step hstep with
      | call call hperform => exact absurd rfl (hact call)
      | done env hc hstate => exact (compactorDone_frame settings env _ _ _ _).2.2.2.2.2
      | _ => rfl
  exact hboth.2

/-- Sessions one after another on the files of a folder, without failures. -/
inductive Life (settings : Settings) (xxh32 : List UInt8 → UInt32) (folder : List Char) :
    System → List (Call × Answer) → Prop
  | opened {files db : DatabaseObject} {mode : File.Mode} {openEnv : OpenEnv}
      (hcleared : files.Cleared) (hmode : mode ≠ .read) (hnew : (files.foundLog mode).length ≤ 16)
      (hlimits : ∀ i, openEnv.accessLimits i = none)
      (h : files.openBinlog settings folder mode openEnv = (.success, db)) :
      Life settings xxh32 folder { database := db } []
  | run {s s' : System} {history more : List (Call × Answer)}
      (hs : Life settings xxh32 folder s history)
      (h : History settings xxh32 Act.Succeeds s s' more) :
      Life settings xxh32 folder s' (history ++ more)
  | reopened {s : System} {history : List (Call × Answer)} {db : DatabaseObject} {env : Env}
      {openEnv : OpenEnv} (hs : Life settings xxh32 folder s history) (henv : env.Succeeds)
      (hlimits : ∀ i, openEnv.accessLimits i = none)
      (h : (s.database.close settings env).openBinlog settings folder .readAppend openEnv =
        (.success, db)) :
      Life settings xxh32 folder { database := db } history

theorem Effects.trans {reliable : Prop} {c c₁ c₂ : Contents} {more : List (Call × Answer)}
    (h : Effects reliable c history c₁) (h' : Effects reliable c₁ more c₂) :
    Effects reliable c (history ++ more) c₂ := by
  induction h' with
  | start => rwa [List.append_nil]
  | next hs heffect ih =>
    rw [← List.append_assoc]
    exact ih.next heffect

/-- What closing leaves says what the map is. -/
theorem Logged.close (h : Logged settings head s) (hopen : s.database.binlog.mode.isSome = true)
    {env : Env} (henv : env.Succeeds) :
    let closed := s.database.close settings env
    closed.Cleared ∧ closed.ready = none ∧ closed.disk = s.database.disk ∧
      ∃ kept rs, Kept settings head kept [] rs closed.binlog ∧
        ∀ key, (logEntry settings (startTime head).relative rs key).map (Entry.touched 0) =
          (s.database.memory.map.lookup key).map (Entry.touched 0) := by
  intro closed
  have hclosed : closed = (s.database.writeBundles settings env).leftFiles := by
    change s.database.close settings env = _
    rw [DatabaseObject.close, if_pos hopen]
    rfl
  have hevents := (writeBundles_leads henv.limits h.steady.1).events
  obtain ⟨kept, rs, hkept, hrefines, -⟩ := h.log hopen
  obtain ⟨bytes, new, happends⟩ := events_append hevents hkept
    (by rw [events_open hevents hopen]; exact hopen) hrefines
  rw [hclosed]
  obtain ⟨-, hdisk, hlookup⟩ := writeBundles_frame settings env s.database
  refine ⟨rfl, (events_frame hevents).1.trans h.ready, hdisk, _, _, happends.log.close, fun key => ?_⟩
  have hentry := happends.refines.entry key
  rw [writeBundles_removing, if_neg List.not_mem_nil] at hentry
  rw [← hentry, hlookup]

theorem Life.holds (h : Life settings xxh32 folder s history) :
    (∃ head, Logged settings head s) ∧ s.database.binlog.mode.isSome = true ∧
      s.database.path = folder ∧
        ∃ c, Effects True .empty history c ∧ Holds xxh32 c s.database := by
  induction h with
  | @opened files db mode openEnv hcleared hmode hnew hlimits hopened =>
    have hnil : (files.foundLog mode).drop 16 = [] := List.drop_of_length_le hnew
    obtain ⟨head, fileMode, hvalid, -, hdb⟩ := openBinlog_found hcleared hmode hopened
    obtain ⟨-, hpath, -, hopen⟩ := readBinlog_frame hdb hvalid.length
    refine ⟨Logged.opened hcleared hmode ⟨[], hnil ▸ .nil⟩ hopened, by rw [hopen hlimits]; rfl, hpath,
      .empty, .start, .empty fun key => ?_⟩
    rw [readBinlog_lookup hdb hvalid, hnil]
    rfl
  | run hs hrun ih =>
    obtain ⟨⟨head, hlogged⟩, hopen, hpath, c, heffects, hholds⟩ := ih
    obtain ⟨-, hopen', c', heffects', hholds'⟩ :=
      hrun.kept True (fun _ => ⟨fun _ h => h, hopen⟩) hlogged.steady hholds
    exact ⟨⟨head, hlogged.history hrun⟩, hopen' trivial, (hrun.path hlogged.steady).trans hpath,
      c', heffects.trans heffects', hholds'⟩
  | @reopened s history db env openEnv hs henv hlimits hopened ih =>
    obtain ⟨⟨head, hlogged⟩, hopen, hpath, c, heffects, hholds⟩ := ih
    obtain ⟨hcleared, hready, hsame, kept, rs, hkept, hentry⟩ := hlogged.close hopen henv
    have hreopen : openEnv.opened = .success := by
      by_contra hfailed
      simp [openBinlog, hready, hfailed] at hopened
    obtain ⟨db₂, hopened₂, hlookup, hclean⟩ :=
      Kept.openBinlog folder hcleared hready hkept hreopen
    cases hopened.symm.trans hopened₂
    obtain ⟨head', fileMode, hvalid, -, hdb⟩ := openBinlog_found hcleared (by simp) hopened
    obtain ⟨-, hpath', hdisk, hopen'⟩ := readBinlog_frame hdb hvalid.length
    refine ⟨Logged.opened hcleared (by simp) hclean hopened, by rw [hopen' hlimits]; rfl, hpath', c,
      heffects, hholds.congr (hpath'.trans hpath.symm) (hdisk.trans hsame) fun key => ?_⟩
    rw [hlookup, hentry]

/-- A life can always go on: the database closes and opens again. -/
theorem Life.reopen (h : Life settings xxh32 folder s history) {env : Env} (henv : env.Succeeds)
    (hreopen : openEnv.opened = .success) (hlimits : ∀ i, openEnv.accessLimits i = none) :
    ∃ db, Life settings xxh32 folder { database := db } history := by
  obtain ⟨⟨head, hlogged⟩, hopen, -⟩ := h.holds
  obtain ⟨hcleared, hready, -, kept, rs, hkept, -⟩ := hlogged.close hopen henv
  obtain ⟨db, hopened, -⟩ := Kept.openBinlog folder hcleared hready hkept hreopen
  exact ⟨db, h.reopened henv hlimits hopened⟩

variable (settings xxh32) in
theorem perform_get (env : Env) (key : Key) (db : DatabaseObject) :
    ∃ value db', db.perform settings xxh32 (.get env key) = some (.value value, db') := by
  have hget : (db.get settings xxh32 env key).isSome = true := by
    unfold DatabaseObject.get getWith
    split
    · rfl
    · dsimp only
      split
      · rfl
      · split <;> rfl
  obtain ⟨⟨value, db'⟩, hvalue⟩ := Option.isSome_iff_exists.mp hget
  exact ⟨value, db', by rw [perform, hvalue]; rfl⟩

end Bettergram.Storage.Cache
