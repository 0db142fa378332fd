import Bettergram.Storage.Cache.Calls
import Bettergram.Storage.Cache.Memory

/-! # Every call is a sequence of events -/

namespace Bettergram.Storage.Cache
open Foundation

variable {settings : Settings} {ok : Option ℕ → Prop}

/-! ## What the parts of a call do -/

namespace Memory

theorem eraseMapEntry_addExcess (m : Memory) (length : ℤ) (key : Key) :
    (m.addExcess length).eraseMapEntry key = (m.eraseMapEntry key).addExcess length := by
  unfold eraseMapEntry addExcess
  cases m.map.lookup key with
  | none => rfl
  | some entry =>
    simp only [updateStats, modifyTag, dropMinimal]
    split_ifs <;> rfl

end Memory

namespace DatabaseObject

variable {db : DatabaseObject}

/-- The database after a bundle of removals was written, or could not be. -/
theorem writeMultiRemove_of_ne (limits : Fin 2 → Option ℕ) (h : db.removing ≠ []) :
    let written := writeBinlog limits (Record.multiHead 0x03 db.removing.length (leBytes 12 0))
      (db.removing.flatMap Key.encode) db.binlog
    db.writeMultiRemove limits =
      if written.1 then
        (Error.noError, { db with
          removing := []
          binlog := written.2
          memory := db.memory.addExcess
            ((Record.multiHead 0x03 db.removing.length (leBytes 12 0)).length +
              (db.removing.flatMap Key.encode).length) })
      else (ioError db.binlogPath, { db with removing := [], binlog := written.2.close }) := by
  intro written
  have hwritten : written = writeBinlog limits
    (Record.multiHead 0x03 db.removing.length (leBytes 12 0))
    (db.removing.flatMap Key.encode) db.binlog := rfl
  clear_value written
  unfold writeMultiRemove
  rw [if_neg h]
  dsimp only
  rw [← hwritten]
  obtain ⟨_ | _, binlog⟩ := written <;> rfl

theorem writeMultiRemove_of_nil (limits : Fin 2 → Option ℕ) (h : db.removing = []) :
    db.writeMultiRemove limits = (Error.noError, db) := if_pos h

@[simp] theorem writeMultiRemove_removing (limits : Fin 2 → Option ℕ) (db : DatabaseObject) :
    (db.writeMultiRemove limits).2.removing = [] := by
  by_cases h : db.removing = []
  · rw [writeMultiRemove_of_nil limits h, h]
  · rw [writeMultiRemove_of_ne limits h]
    split <;> rfl

@[simp] theorem writeMultiRemove_frame (limits : Fin 2 → Option ℕ) (db : DatabaseObject) :
    (db.writeMultiRemove limits).2.accessed = db.accessed ∧
      (db.writeMultiRemove limits).2.path = db.path ∧
      (db.writeMultiRemove limits).2.stale = db.stale ∧
      (db.writeMultiRemove limits).2.disk = db.disk ∧
      (db.writeMultiRemove limits).2.memory.map = db.memory.map := by
  by_cases h : db.removing = []
  · rw [writeMultiRemove_of_nil limits h]
    exact ⟨rfl, rfl, rfl, rfl, rfl⟩
  · rw [writeMultiRemove_of_ne limits h]
    split <;> exact ⟨rfl, rfl, rfl, rfl, rfl⟩

/-- Writing the removals and erasing an entry do not touch each other's fields. -/
theorem writeMultiRemove_eraseMapEntry (limits : Fin 2 → Option ℕ) (key : Key)
    (db : DatabaseObject) :
    { (db.writeMultiRemove limits).2 with
      memory := (db.writeMultiRemove limits).2.memory.eraseMapEntry key } =
      ({ db with memory := db.memory.eraseMapEntry key }.writeMultiRemove limits).2 := by
  by_cases h : db.removing = []
  · rw [writeMultiRemove_of_nil limits h, writeMultiRemove_of_nil]
    exact h
  · rw [writeMultiRemove_of_ne limits h, writeMultiRemove_of_ne limits]
    · split
      · simp only [Memory.eraseMapEntry_addExcess]
      · rfl
    · exact h

/-- The database after a block of accesses was written, or could not be. -/
theorem writeMultiAccessBlock_eq (limits : Fin 2 → Option ℕ) (clock : Int32)
    (db : DatabaseObject) :
    let time := db.memory.countTimePoint clock
    let memory := db.accessed.foldl (fun m key => m.setUseTime time.relative key)
      { db.memory with time }
    let written := writeBinlog limits (Record.multiHead 0x04 db.accessed.length time.encode)
      (db.accessed.flatMap Key.encode) db.binlog
    db.writeMultiAccessBlock limits clock =
      if written.1 then
        (Error.noError, { db with
          accessed := []
          binlog := written.2
          memory := memory.addExcess
            ((Record.multiHead 0x04 db.accessed.length time.encode).length +
              (db.accessed.flatMap Key.encode).length) })
      else
        (ioError db.binlogPath, { db with accessed := [], binlog := written.2.close, memory }) := by
  intro time memory written
  have hwritten : written = writeBinlog limits
    (Record.multiHead 0x04 db.accessed.length time.encode)
    (db.accessed.flatMap Key.encode) db.binlog := rfl
  clear_value written
  unfold writeMultiAccessBlock
  dsimp only
  rw [← hwritten]
  obtain ⟨_ | _, binlog⟩ := written <;> rfl

@[simp] theorem writeMultiAccessBlock_frame (limits : Fin 2 → Option ℕ) (clock : Int32)
    (db : DatabaseObject) :
    (db.writeMultiAccessBlock limits clock).2.accessed = [] ∧
      (db.writeMultiAccessBlock limits clock).2.removing = db.removing ∧
      (db.writeMultiAccessBlock limits clock).2.path = db.path ∧
      (db.writeMultiAccessBlock limits clock).2.stale = db.stale ∧
      (db.writeMultiAccessBlock limits clock).2.disk = db.disk := by
  rw [writeMultiAccessBlock_eq]
  dsimp only
  split <;> exact ⟨rfl, rfl, rfl, rfl, rfl⟩

variable (settings) in
@[simp] theorem writeStore_removing (limit : Option ℕ) (record : Store) (db : DatabaseObject) :
    (db.writeStore settings limit record).2.removing = db.removing ∧
      (db.writeStore settings limit record).2.accessed = db.accessed := by
  unfold writeStore
  split <;> exact ⟨rfl, rfl⟩

/-- What a successful `writeKeyPlace` did: nothing, for an identical value, or a write to the
log at the place of the entry or at a free one. -/
theorem writeKeyPlace_cases {env : Env} {key : Key} {value : TaggedValue} {checksum : UInt32}
    {maybepath : Option (List Char)} {db' : DatabaseObject}
    (h : db.writeKeyPlace settings env key value checksum = some (maybepath, db')) :
    value.bytes.length ≤ settings.maxDataSize ∧
    ((∃ already, db.memory.map.lookup key = some already ∧ already.tag = value.tag ∧
        already.size = value.bytes.length ∧ already.checksum = checksum ∧
        db.readValueData already.place value.bytes.length = value.bytes ∧
        maybepath = some [] ∧ db' = db) ∨
      ∃ place time, db.recordTime settings env.storeClock = some time ∧
        ((∃ already, db.memory.map.lookup key = some already ∧ place = already.place ∧
            ¬(already.tag = value.tag ∧ already.size = value.bytes.length ∧
              already.checksum = checksum ∧
              db.readValueData already.place value.bytes.length = value.bytes)) ∨
          (db.memory.map.lookup key = none ∧ db.isFreePlace place = true)) ∧
        db' = (db.writeStore settings env.storeLimit
          ⟨value.tag, value.bytes.length, place, checksum, key, time⟩).2 ∧
        maybepath = if (db.writeStore settings env.storeLimit
          ⟨value.tag, value.bytes.length, place, checksum, key, time⟩).1
          then some (db'.placePath place) else some []) := by
  unfold writeKeyPlace at h
  rw [Option.bind_eq_bind, Option.bind_eq_some_iff] at h
  obtain ⟨time, htime, h⟩ := h
  dsimp only at h
  split at h
  · cases h
  · next hsize =>
    refine ⟨by omega, ?_⟩
    split at h
    · next already hlookup =>
      split at h
      · next hsame =>
        cases h
        obtain ⟨h₁, h₂, h₃, h₄⟩ := hsame
        exact .inl ⟨already, hlookup, h₁, h₂, h₃, h₄, rfl, rfl⟩
      · next hdiffers =>
        refine .inr ⟨already.place, time, htime, .inl ⟨already, hlookup, rfl, hdiffers⟩, ?_⟩
        rcases hwrite : db.writeStore settings env.storeLimit
          ⟨value.tag, value.bytes.length, already.place, checksum, key, time⟩ with ⟨_ | _, _⟩ <;>
        · rw [hwrite] at h
          cases h
          exact ⟨rfl, rfl⟩
    · next hlookup =>
      rw [Option.bind_eq_bind, Option.bind_eq_some_iff] at h
      obtain ⟨place, hplace, h⟩ := h
      have hfree := List.find?_some hplace
      refine .inr ⟨place, time, htime, .inr ⟨hlookup, hfree⟩, ?_⟩
      rcases hwrite : db.writeStore settings env.storeLimit
        ⟨value.tag, value.bytes.length, place, checksum, key, time⟩ with ⟨_ | _, _⟩ <;>
      · rw [hwrite] at h
        cases h
        exact ⟨rfl, rfl⟩

theorem writeExistingPlace_cases {env : Env} {key : Key} {entry : Entry} {error : Error}
    {db' : DatabaseObject} (hnone : db.memory.map.lookup key = none)
    (h : db.writeExistingPlace settings env key entry = some (error, db')) :
    ∃ time, db.recordTime settings env.storeClock = some time ∧
      db' = (db.writeStore settings env.storeLimit
        ⟨entry.tag, entry.size, entry.place, entry.checksum, key, time⟩).2 ∧
      error = if (db.writeStore settings env.storeLimit
        ⟨entry.tag, entry.size, entry.place, entry.checksum, key, time⟩).1
        then Error.noError else ioError db'.binlogPath := by
  unfold writeExistingPlace at h
  rw [Option.bind_eq_bind, Option.bind_eq_some_iff] at h
  obtain ⟨time, htime, h⟩ := h
  refine ⟨time, htime, ?_⟩
  simp only [hnone] at h
  rcases hwrite : db.writeStore settings env.storeLimit
    ⟨entry.tag, entry.size, entry.place, entry.checksum, key, time⟩ with ⟨_ | _, _⟩ <;>
  · rw [hwrite] at h
    cases h
    exact ⟨rfl, rfl⟩

/-- The ways a `put` of a value can end. -/
inductive PutResult (settings : Settings) (env : Env) (key : Key) (value : TaggedValue)
    (checksum : UInt32) (db : DatabaseObject) : Error → DatabaseObject → Prop
  | unchanged {already : Entry} (hlookup : db.memory.map.lookup key = some already)
      (htag : already.tag = value.tag) (hsize : already.size = value.bytes.length)
      (hsum : already.checksum = checksum)
      (hdata : db.readValueData already.place value.bytes.length = value.bytes) :
      PutResult settings env key value checksum db Error.noError
        ((db.forget key).recordEntryAccess settings env key)
  | unlogged {place : PlaceId} {time : EstimatedTimePoint}
      (htime : db.recordTime settings env.storeClock = some time)
      (hlog : ((db.forget key).writeStore settings env.storeLimit
        ⟨value.tag, value.bytes.length, place, checksum, key, time⟩).1 = false) :
      PutResult settings env key value checksum db Error.noError
        (((db.forget key).writeStore settings env.storeLimit
          ⟨value.tag, value.bytes.length, place, checksum, key, time⟩).2.recordEntryAccess
            settings env key)
  | unstored {place : PlaceId} {time : EstimatedTimePoint} {error : Error}
      {left : Option (List UInt8)} (htime : db.recordTime settings env.storeClock = some time)
      (hlog : ((db.forget key).writeStore settings env.storeLimit
        ⟨value.tag, value.bytes.length, place, checksum, key, time⟩).1 = true)
      (herror : error.type ≠ .none) :
      PutResult settings env key value checksum db error
        (((((db.forget key).writeStore settings env.storeLimit
          ⟨value.tag, value.bytes.length, place, checksum, key, time⟩).2.setFile
            (db.placePath place) left).remove settings env key).2)
  | stored {place : PlaceId} {time : EstimatedTimePoint}
      (hplace : (∃ already, db.memory.map.lookup key = some already ∧ place = already.place) ∨
        (db.memory.map.lookup key = none ∧ db.isFreePlace place = true))
      (htime : db.recordTime settings env.storeClock = some time)
      (hlog : ((db.forget key).writeStore settings env.storeLimit
        ⟨value.tag, value.bytes.length, place, checksum, key, time⟩).1 = true)
      (hopen : env.dataOpen = .success)
      (hdata : (PlainFile.created.writeWithPadding env.dataLimits env.padding
        value.bytes).1 = true) :
      PutResult settings env key value checksum db Error.noError
        (((db.forget key).writeStore settings env.storeLimit
          ⟨value.tag, value.bytes.length, place, checksum, key, time⟩).2.setFile
            (db.placePath place) (some (PlainFile.created.writeWithPadding env.dataLimits
              env.padding value.bytes).2.data))

theorem placeFromId_ne_nil (place : PlaceId) : placeFromId place ≠ [] := by
  have hlen : place.toList.length = 7 := by simp
  unfold placeFromId
  split
  · next h => simp [h] at hlen
  · simp [hexByte]

variable (settings db) in
theorem placePath_writeStore (limit : Option ℕ) (record : Store) (place : PlaceId) :
    ((db.forget record.key).writeStore settings limit record).2.placePath place =
      db.placePath place := by
  unfold writeStore
  split <;> rfl

theorem put_cases {xxh32 : List UInt8 → UInt32} {env : Env} {key : Key} {value : TaggedValue}
    {error : Error} {db' : DatabaseObject} (hne : value.bytes ≠ [])
    (h : db.put settings xxh32 env key value = some (error, db')) :
    value.bytes.length ≤ settings.maxDataSize ∧
      PutResult settings env key value (xxh32 value.bytes) db error db' := by
  rw [put, if_neg hne, Option.bind_eq_bind, Option.bind_eq_some_iff] at h
  obtain ⟨⟨maybepath, db₁⟩, hwrite, h⟩ := h
  obtain ⟨hsize, hcases⟩ := writeKeyPlace_cases hwrite
  refine ⟨hsize, ?_⟩
  rcases hcases with ⟨already, hlookup, htag, hlen, hsum, hdata, rfl, rfl⟩ |
    ⟨place, time, htime, hplace, rfl, hpath⟩
  · cases h
    exact .unchanged hlookup htag hlen hsum hdata
  · cases hlog : ((db.forget key).writeStore settings env.storeLimit
      ⟨value.tag, value.bytes.length, place, xxh32 value.bytes, key, time⟩).1 with
    | false =>
      simp only [hlog, Bool.false_eq_true, if_false] at hpath
      subst hpath
      cases h
      exact .unlogged htime hlog
    | true =>
      simp only [hlog, if_true] at hpath
      have hplacePath := db.placePath_writeStore settings env.storeLimit
        ⟨value.tag, value.bytes.length, place, xxh32 value.bytes, key, time⟩ place
      have hnil : db.placePath place ≠ [] := by
        simp [placePath, placeFromId_ne_nil]
      rw [hplacePath] at hpath
      obtain ⟨c, cs, hcons⟩ := List.exists_cons_of_ne_nil hnil
      subst hpath
      simp only [hcons] at h
      rw [← hcons] at h
      have hplace' : (∃ already, db.memory.map.lookup key = some already ∧
          place = already.place) ∨
          (db.memory.map.lookup key = none ∧ db.isFreePlace place = true) := by
        rcases hplace with ⟨already, hlookup, hpl, -⟩ | hfree
        · exact .inl ⟨already, hlookup, hpl⟩
        · exact .inr hfree
      split at h
      · cases h
        exact .unstored htime hlog (by simp [ioError])
      · cases h
        exact .unstored htime hlog (by simp)
      · next hopen =>
        split at h
        · next hdata =>
          cases h
          exact .stored hplace' htime hlog hopen hdata
        · cases h
          exact .unstored htime hlog (by simp [ioError])

end DatabaseObject

/-! ## Calls as sequences of events -/

namespace Leads

variable {db db₁ db₂ : DatabaseObject}

theorem refl (h : db.Bundled settings) : Leads settings ok db db := ⟨.refl, h⟩

theorem trans (h₁ : Leads settings ok db db₁) (h₂ : Leads settings ok db₁ db₂) :
    Leads settings ok db db₂ := ⟨h₁.events.trans h₂.events, h₂.bundled⟩

theorem event (h : Event settings ok db db₁) (hb : db₁.Bundled settings) :
    Leads settings ok db db₁ := ⟨.single h, hb⟩

end Leads

namespace DatabaseObject

variable {db : DatabaseObject}

theorem Bundled.forget (h : db.Bundled settings) (key : Key) : (db.forget key).Bundled settings where
  removing := lt_of_le_of_lt (List.length_filter_le _ _) h.removing
  accessed := h.accessed

theorem Bundled.writeStore (h : db.Bundled settings) (limit : Option ℕ) (record : Store) :
    (db.writeStore settings limit record).2.Bundled settings := by
  obtain ⟨hr, ha⟩ := writeStore_removing settings limit record db
  exact ⟨hr ▸ h.removing, ha ▸ h.accessed⟩

variable (db) in
theorem writeMultiRemove_leads {limits : Fin 2 → Option ℕ} (hlimits : ∀ i, ok (limits i))
    (hr : db.removing.length ≤ settings.maxBundledRecords)
    (ha : db.accessed.length < settings.maxBundledRecords) :
    Leads settings ok db (db.writeMultiRemove limits).2 := by
  have hb : (db.writeMultiRemove limits).2.Bundled settings := by
    constructor
    · rw [writeMultiRemove_removing]
      exact settings.maxBundledRecords_pos
    · rwa [(writeMultiRemove_frame limits db).1]
  by_cases h : db.removing = []
  · rw [writeMultiRemove_of_nil limits h] at hb ⊢
    exact .refl hb
  · exact .event (.removes hlimits h hr) hb

variable (db) in
theorem writeMultiAccessBlock_leads {limits : Fin 2 → Option ℕ} (clock : Int32)
    (hlimits : ∀ i, ok (limits i)) (htracked : settings.trackEstimatedTime = true)
    (hr : db.removing.length < settings.maxBundledRecords)
    (ha : db.accessed.length ≤ settings.maxBundledRecords) :
    Leads settings ok db (db.writeMultiAccessBlock limits clock).2 := by
  obtain ⟨haccessed, hremoving, -⟩ := writeMultiAccessBlock_frame limits clock db
  apply Leads.event (.accesses clock hlimits htracked ha)
  constructor
  · rwa [hremoving]
  · rw [haccessed]
    exact settings.maxBundledRecords_pos

variable (db) in
theorem writeMultiAccess_leads {limits : Fin 2 → Option ℕ} (clock : Int32)
    (hlimits : ∀ i, ok (limits i)) (htracked : settings.trackEstimatedTime = true)
    (hr : db.removing.length < settings.maxBundledRecords)
    (ha : db.accessed.length ≤ settings.maxBundledRecords) :
    Leads settings ok db (db.writeMultiAccess limits clock).2 := by
  unfold writeMultiAccess
  split
  · next h =>
    exact .refl ⟨hr, by rw [h]; exact settings.maxBundledRecords_pos⟩
  · exact writeMultiAccessBlock_leads db clock hlimits htracked hr ha

theorem recordEntryAccess_leads {env : Env} (henv : env.Limits ok) (key : Key)
    (h : db.Bundled settings) : Leads settings ok db (db.recordEntryAccess settings env key) := by
  unfold recordEntryAccess
  split
  · next htracked =>
    have hlen := length_insertKey_le key db.accessed
    have ha := h.accessed
    have haccess : Relation.ReflTransGen (Event settings ok) db
        { db with accessed := insertKey key db.accessed } := .single (.access key htracked)
    dsimp only
    split
    · next hfull =>
      have hlead := writeMultiAccess_leads { db with accessed := insertKey key db.accessed }
        env.accessClock henv.access htracked h.removing hfull.le
      exact ⟨haccess.trans hlead.events, hlead.bundled⟩
    · next hfull =>
      exact ⟨haccess, h.removing, by dsimp only at hfull ⊢; omega⟩
  · exact .refl h

theorem writeBundles_leads {env : Env} (henv : env.Limits ok) (h : db.Bundled settings) :
    Leads settings ok db (db.writeBundles settings env) := by
  have hremove := writeMultiRemove_leads db henv.remove h.removing.le h.accessed
  unfold writeBundles
  dsimp only
  split
  · next htracked =>
    exact hremove.trans (writeMultiAccess_leads _ env.accessClock henv.access htracked
      hremove.bundled.removing hremove.bundled.accessed.le)
  · exact hremove

theorem remove_leads {env : Env} (henv : env.Limits ok) (key : Key) (h : db.Bundled settings) :
    Leads settings ok db (db.remove settings env key).2 := by
  unfold remove
  split
  · exact .refl h
  · next entry hlookup =>
    have hlen := length_insertKey_le key db.removing
    have hr := h.removing
    have hunmap : Relation.ReflTransGen (Event settings ok) db (db.unmap key) :=
      .single (.unmap hlookup)
    -- the removals are written before the entry is erased, which makes no difference
    have hflush : Leads settings ok db
        (let d := { db with removing := insertKey key db.removing }.writeMultiRemoveLazy
            settings env.removeLimits; { d with memory := d.memory.eraseMapEntry key }) := by
      unfold writeMultiRemoveLazy
      dsimp only
      split
      · next hfull =>
        have hlead := writeMultiRemove_leads (db.unmap key) henv.remove hfull.le h.accessed
        rw [writeMultiRemove_eraseMapEntry]
        exact ⟨hunmap.trans hlead.events, hlead.bundled⟩
      · next hfull =>
        exact ⟨hunmap, by dsimp only [unmap] at hfull ⊢; omega, h.accessed⟩
    dsimp only at hflush ⊢
    split
    · exact hflush
    · split
      · exact ⟨hflush.events.tail (.disk _), hflush.bundled.removing, hflush.bundled.accessed⟩
      · exact hflush

variable {xxh32 : List UInt8 → UInt32}

theorem put_leads {env : Env} {key : Key} {value : TaggedValue} {error : Error}
    {db' : DatabaseObject} (henv : env.Limits ok) (h : db.Bundled settings)
    (hput : db.put settings xxh32 env key value = some (error, db')) :
    Leads settings ok db db' := by
  by_cases hne : value.bytes = []
  · rw [put, if_pos hne, Option.some.injEq] at hput
    have hremove := remove_leads henv key h
    rwa [hput] at hremove
  · obtain ⟨hsize, hresult⟩ := put_cases hne hput
    have hpos : value.bytes.length ≠ 0 := by simpa using hne
    have hstore : ∀ {place time}, db.recordTime settings env.storeClock = some time →
        Leads settings ok db ((db.forget key).writeStore settings env.storeLimit
          ⟨value.tag, value.bytes.length, place, xxh32 value.bytes, key, time⟩).2 :=
      fun {place time} htime => .event (.store env.storeClock
        ⟨value.tag, value.bytes.length, place, xxh32 value.bytes, key, time⟩
        henv.store htime hpos hsize) ((h.forget key).writeStore _ _)
    have hfile : ∀ {d : DatabaseObject} (path content), Leads settings ok db d →
        Leads settings ok db (d.setFile path content) := fun path content hlead =>
      ⟨hlead.events.tail (.disk _), hlead.bundled.removing, hlead.bundled.accessed⟩
    cases hresult with
    | unchanged hlookup =>
      exact (Leads.event (.forget hlookup) (h.forget key)).trans
        (recordEntryAccess_leads henv key (h.forget key))
    | unlogged htime hlog =>
      exact (hstore htime).trans (recordEntryAccess_leads henv key (hstore htime).bundled)
    | unstored htime hlog herror =>
      exact (hfile _ _ (hstore htime)).trans
        (remove_leads henv key (hfile _ _ (hstore htime)).bundled)
    | stored hplace htime hlog hopen hdata => exact hfile _ _ (hstore htime)

theorem getWith_leads {α : Type} {env : Env} {key : Key} {result : α} {db' : DatabaseObject}
    {done : TaggedValue → DatabaseObject → Option (α × DatabaseObject)} (henv : env.Limits ok)
    (hdone : ∀ {value d r d'}, d.Bundled settings → done value d = some (r, d') →
      Leads settings ok d d')
    (h : db.Bundled settings)
    (hget : db.getWith settings xxh32 env key done = some (result, db')) :
    Leads settings ok db db' := by
  unfold getWith at hget
  split at hget
  · exact hdone h hget
  · have hremove := remove_leads henv key h
    dsimp only at hget
    split at hget
    · exact hremove.trans (hdone hremove.bundled hget)
    · split at hget
      · exact hremove.trans (hdone hremove.bundled hget)
      · rw [Option.bind_eq_bind, Option.bind_eq_some_iff] at hget
        obtain ⟨⟨r, d⟩, hvalue, hget⟩ := hget
        cases hget
        have hlead := hdone h hvalue
        exact hlead.trans (recordEntryAccess_leads henv key hlead.bundled)

/-- Every entry has a size the code accepts. -/
def Sized (settings : Settings) (db : DatabaseObject) : Prop :=
  ∀ {key entry}, db.memory.map.lookup key = some entry → Memory.ValidSize settings entry.size

theorem moveIfEmpty_leads {env : Env} {source target : Key} {error : Error} {db' : DatabaseObject}
    (henv : env.Limits ok) (h : db.Bundled settings) (hsized : db.Sized settings)
    (hmove : db.moveIfEmpty settings env source target = some (error, db')) :
    Leads settings ok db db' := by
  unfold moveIfEmpty at hmove
  split at hmove
  · cases hmove
    exact .refl h
  next htarget =>
  split at hmove
  · cases hmove
    exact .refl h
  next entry hsource =>
  have hlen := length_insertKey_le source db.removing
  have hr := h.removing
  have hflush := writeMultiRemove_leads (db.unmap source) henv.remove
    (by dsimp only [unmap]; omega) h.accessed
  have hlead : Leads settings ok db ((db.unmap source).writeMultiRemove env.removeLimits).2 :=
    ⟨(Relation.ReflTransGen.single (.unmap hsource)).trans hflush.events, hflush.bundled⟩
  dsimp only at hmove
  obtain ⟨-, -, -, -, hmap⟩ := writeMultiRemove_frame env.removeLimits (db.unmap source)
  generalize hflushed : writeMultiRemove env.removeLimits { db with
    removing := insertKey source db.removing
    memory := db.memory.eraseMapEntry source } = flushed at hmove
  change (db.unmap source).writeMultiRemove env.removeLimits = flushed at hflushed
  rw [hflushed] at hlead hmap
  obtain ⟨flushError, db₁⟩ := flushed
  dsimp only at hlead hmap hmove
  split at hmove
  · cases hmove
    exact hlead
  · have hnone : (db₁.forget target).memory.map.lookup target = none := by
      change db₁.memory.map.lookup target = none
      rw [hmap]
      simp only [unmap, Memory.lookup_eraseMapEntry]
      split
      · rfl
      · simpa using htarget
    obtain ⟨time, htime, rfl, -⟩ := writeExistingPlace_cases hnone hmove
    obtain ⟨hpos, hle⟩ := hsized hsource
    exact hlead.trans (.event (.store env.storeClock
      ⟨entry.tag, entry.size, entry.place, entry.checksum, target, time⟩
      henv.store htime hpos hle) ((hlead.bundled.forget target).writeStore _ _))

theorem removeKeys_leads {keys : List Key} {env : ℕ → Env} (henv : ∀ i, (env i).Limits ok)
    (h : db.Bundled settings) : Leads settings ok db (removeKeys settings keys env db) := by
  induction keys generalizing db env with
  | nil => exact .refl h
  | cons key keys ih =>
    have hremove := remove_leads (henv 0) key h
    exact hremove.trans (ih (fun i => henv (i + 1)) hremove.bundled)

theorem setStale_leads {db₁ : DatabaseObject} (stale : List Key) (h : Leads settings ok db db₁) :
    Leads settings ok db { db₁ with stale } :=
  ⟨h.events.tail (.stale stale), h.bundled.removing, h.bundled.accessed⟩

theorem clearStaleChunk_leads {env : ℕ → Env} (henv : ∀ i, (env i).Limits ok)
    (h : db.Bundled settings) : Leads settings ok db (db.clearStaleChunk settings env) :=
  setStale_leads _ (removeKeys_leads henv h)

theorem clearStaleNow_leads {stale : List Key} {env : ℕ → Env} (henv : ∀ i, (env i).Limits ok)
    (h : db.Bundled settings) : Leads settings ok db (db.clearStaleNow settings stale env) := by
  unfold clearStaleNow
  split
  · exact .refl h
  · exact setStale_leads _ (removeKeys_leads henv h)

theorem prune_leads {clock : Int32} {env : ℕ → Env} (henv : ∀ i, (env i).Limits ok)
    (h : db.Bundled settings) : Leads settings ok db (db.prune settings clock env) := by
  unfold prune
  split
  · exact .refl h
  · have hcollect : Leads settings ok db
        { db with memory := (db.collectStale settings clock).2 } :=
      .event (.collect clock) ⟨h.removing, h.accessed⟩
    dsimp only
    split
    · exact hcollect.trans (clearStaleNow_leads henv hcollect.bundled)
    · have hstale := setStale_leads (db.collectStale settings clock).1 hcollect
      exact hstale.trans (clearStaleChunk_leads henv hstale.bundled)

theorem clearByTag_leads {env : ℕ → Env} (henv : ∀ i, (env i).Limits ok) (tag : UInt8)
    (h : db.Bundled settings) : Leads settings ok db (db.clearByTag settings env tag) := by
  have hstale : ∀ stale, Leads settings ok db { db with stale } :=
    fun stale => setStale_leads stale (Leads.refl h)
  unfold clearByTag
  dsimp only
  split
  · exact hstale _
  · exact (hstale _).trans (clearStaleChunk_leads henv (hstale _).bundled)

theorem rehash_leads (order : List (Sigma fun _ : Key => Entry)) (h : db.Bundled settings) :
    Leads settings ok db (db.rehash order) := by
  apply Leads.event (.rehash order)
  unfold rehash
  split
  · exact ⟨h.removing, h.accessed⟩
  · exact h

/-- Every call is a sequence of events. -/
theorem perform_leads {call : Call} {answer : Answer} {db' : DatabaseObject}
    (hcall : call.Limits ok) (h : db.Bundled settings) (hsized : db.Sized settings)
    (hperform : db.perform settings xxh32 call = some (answer, db')) :
    Leads settings ok db db' := by
  cases call with
  | put env key value =>
    obtain ⟨⟨error, d⟩, hput, heq⟩ := Option.map_eq_some_iff.mp hperform
    cases heq
    exact put_leads hcall h hput
  | get env key =>
    obtain ⟨⟨value, d⟩, hget, heq⟩ := Option.map_eq_some_iff.mp hperform
    cases heq
    exact getWith_leads hcall (fun hb hd => by cases hd; exact .refl hb) h hget
  | remove env key =>
    cases hperform
    exact remove_leads hcall key h
  | putIfEmpty env key value =>
    obtain ⟨⟨error, d⟩, hput, heq⟩ := Option.map_eq_some_iff.mp hperform
    cases heq
    unfold putIfEmpty at hput
    split at hput
    · cases hput
      exact .refl h
    · exact put_leads hcall h hput
  | copyIfEmpty getEnv putEnv source target =>
    obtain ⟨⟨error, d⟩, hcopy, heq⟩ := Option.map_eq_some_iff.mp hperform
    cases heq
    unfold copyIfEmpty at hcopy
    split at hcopy
    · cases hcopy
      exact .refl h
    · exact getWith_leads hcall.1 (fun hb hd => put_leads hcall.2 hb hd) h hcopy
  | moveIfEmpty env source target =>
    obtain ⟨⟨error, d⟩, hmove, heq⟩ := Option.map_eq_some_iff.mp hperform
    cases heq
    exact moveIfEmpty_leads hcall h hsized hmove
  | clearByTag env tag =>
    cases hperform
    exact clearByTag_leads hcall tag h
  | prune clock env =>
    cases hperform
    exact prune_leads hcall h
  | clearStaleChunk env =>
    cases hperform
    exact clearStaleChunk_leads hcall h
  | writeBundles env =>
    cases hperform
    exact writeBundles_leads hcall h
  | rehash order =>
    cases hperform
    exact rehash_leads order h

theorem lookup_rehash (order : List (Sigma fun _ : Key => Entry)) (db : DatabaseObject) (key : Key) :
    (db.rehash order).memory.map.lookup key = db.memory.map.lookup key := by
  unfold rehash
  split
  · next h => exact AList.perm_lookup h
  · rfl

/-- Events keep the sizes of the entries valid. -/
theorem Sized.event {db' : DatabaseObject} (h : db.Sized settings) (hevent : Event settings ok db db') :
    db'.Sized settings := by
  intro k e he
  cases hevent with
  | forget hlookup => exact h he
  | store clock record hlimit htime hpos hsize =>
    unfold writeStore at he
    split at he
    · exact h he
    · dsimp only [forget] at he
      rw [Memory.lookup_processRecordStore _ ⟨hpos, hsize⟩] at he
      split at he
      · cases he
        exact ⟨hpos, hsize⟩
      · exact h he
  | unmap hlookup =>
    rw [unmap, Memory.lookup_eraseMapEntry] at he
    split at he
    · cases he
    · exact h he
  | removes hlimits hne hlen =>
    rw [(writeMultiRemove_frame _ db).2.2.2.2] at he
    exact h he
  | access key htracked => exact h he
  | accesses clock hlimits htracked hlen =>
    have hlookup := Memory.lookup_foldl_setUseTime (db.memory.countTimePoint clock).relative
      db.accessed { db.memory with time := db.memory.countTimePoint clock } k
    rw [writeMultiAccessBlock_eq] at he
    have hsame : ∃ e', db.memory.map.lookup k = some e' ∧ e.size = e'.size := by
      dsimp only at he hlookup
      split at he
      all_goals
        first | rw [(Memory.addExcess_frame _ _).1, hlookup] at he | rw [hlookup] at he
        split at he
        · obtain ⟨e', he', rfl⟩ := Option.map_eq_some_iff.mp he
          exact ⟨e', he', rfl⟩
        · exact ⟨e, he, rfl⟩
    obtain ⟨e', he', hsize⟩ := hsame
    rw [hsize]
    exact h he'
  | disk disk => exact h he
  | stale stale => exact h he
  | collect clock =>
    rw [collectStale, (Memory.collectTimeStale_frame settings clock db.memory).1] at he
    exact h he
  | rehash order =>
    rw [lookup_rehash] at he
    exact h he

theorem Sized.events {db' : DatabaseObject} (h : db.Sized settings)
    (hevents : Relation.ReflTransGen (Event settings ok) db db') : db'.Sized settings := by
  induction hevents with
  | refl => exact h
  | tail _ hevent ih => exact ih.event hevent

/-- A run is a sequence of events as well. -/
theorem run_leads {calls : List Call} {answers : List Answer} {db' : DatabaseObject}
    (hcalls : ∀ call ∈ calls, call.Limits ok) (h : db.Bundled settings) (hsized : db.Sized settings)
    (hrun : db.run settings xxh32 calls = some (answers, db')) : Leads settings ok db db' := by
  induction calls generalizing db answers with
  | nil =>
    cases hrun
    exact .refl h
  | cons call calls ih =>
    rw [run, Option.bind_eq_bind, Option.bind_eq_some_iff] at hrun
    obtain ⟨⟨answer, db₁⟩, hperform, hrun⟩ := hrun
    rw [Option.bind_eq_bind, Option.bind_eq_some_iff] at hrun
    obtain ⟨⟨rest, db₂⟩, hrest, hrun⟩ := hrun
    cases hrun
    have hlead := perform_leads (hcalls call (by simp)) h hsized hperform
    exact hlead.trans (ih (fun c hc => hcalls c (by simp [hc])) hlead.bundled
      (hsized.events hlead.events) hrest)

end DatabaseObject

end Bettergram.Storage.Cache
