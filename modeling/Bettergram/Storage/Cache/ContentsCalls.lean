import Bettergram.Storage.Cache.Contents

/-! # What a call does to the contents

Each part of a call leaves all values but that of one key alone, and that one
stays what it was, becomes the new one or goes. The file of a value is written
after its record, so it is only when both succeed that the value is there.
-/

namespace Bettergram.Storage.Cache
open Foundation DatabaseObject

variable {xxh32 : List UInt8 → UInt32} {c : Contents} {db db' : DatabaseObject}

/-! ## Parts of calls -/

namespace DatabaseObject

variable {settings : Settings} {env : Env} {key : Key}

/-- An access sets use times. -/
theorem writeMultiAccessBlock_lookup (limits : Fin 2 → Option ℕ) (clock : Int32)
    (db : DatabaseObject) (key : Key) :
    ((db.writeMultiAccessBlock limits clock).2.memory.map.lookup key).map (Entry.touched 0) =
      (db.memory.map.lookup key).map (Entry.touched 0) := by
  have haccesses := lookup_accesses (db.memory.countTimePoint clock) db.accessed db.memory key
  have hmap : (db.writeMultiAccessBlock limits clock).2.memory.map.lookup key =
      if key ∈ db.accessed
        then (db.memory.map.lookup key).map (Entry.touched (db.memory.countTimePoint clock).relative)
        else db.memory.map.lookup key := by
    rw [writeMultiAccessBlock_eq, ← haccesses]
    dsimp only
    split <;> rfl
  rw [hmap]
  split
  · rw [Option.map_map]
    rfl
  · rfl

variable (settings env key) in
theorem recordEntryAccess_frame (db : DatabaseObject) :
    (db.recordEntryAccess settings env key).path = db.path ∧
      (db.recordEntryAccess settings env key).disk = db.disk ∧
      ∀ k, ((db.recordEntryAccess settings env key).memory.map.lookup k).map (Entry.touched 0) =
        (db.memory.map.lookup k).map (Entry.touched 0) := by
  unfold recordEntryAccess
  split
  · dsimp only
    split
    · unfold writeMultiAccess
      split
      · exact ⟨rfl, rfl, fun _ => rfl⟩
      · obtain ⟨-, -, hpath, -, hdisk⟩ := writeMultiAccessBlock_frame env.accessLimits
          env.accessClock { db with accessed := insertKey key db.accessed }
        exact ⟨hpath, hdisk, writeMultiAccessBlock_lookup _ _ _⟩
    · exact ⟨rfl, rfl, fun _ => rfl⟩
  · exact ⟨rfl, rfl, fun _ => rfl⟩

variable (settings env) in
theorem writeBundles_frame (db : DatabaseObject) :
    (db.writeBundles settings env).path = db.path ∧
      (db.writeBundles settings env).disk = db.disk ∧
      ∀ k, ((db.writeBundles settings env).memory.map.lookup k).map (Entry.touched 0) =
        (db.memory.map.lookup k).map (Entry.touched 0) := by
  obtain ⟨-, hpath, -, hdisk, hmap⟩ := writeMultiRemove_frame env.removeLimits db
  unfold writeBundles
  dsimp only
  split
  · unfold writeMultiAccess
    split
    · exact ⟨hpath, hdisk, fun k => by rw [hmap]⟩
    · obtain ⟨-, -, hpath', -, hdisk'⟩ := writeMultiAccessBlock_frame env.accessLimits
        env.accessClock (db.writeMultiRemove env.removeLimits).2
      exact ⟨hpath'.trans hpath, hdisk'.trans hdisk, fun k =>
        (writeMultiAccessBlock_lookup _ _ _ k).trans (by rw [hmap])⟩
  · exact ⟨hpath, hdisk, fun k => by rw [hmap]⟩

variable (settings env key) in
/-- The entry goes away in any case, and at most its own file with it. -/
theorem remove_frame (db : DatabaseObject) :
    (db.remove settings env key).2.path = db.path ∧
      (∀ k, (db.remove settings env key).2.memory.map.lookup k =
        if k = key then none else db.memory.map.lookup k) ∧
      ∀ path, (∀ entry, db.memory.map.lookup key = some entry → path ≠ db.placePath entry.place) →
        (db.remove settings env key).2.disk path = db.disk path := by
  unfold remove
  split
  · next hnone =>
    refine ⟨rfl, fun k => ?_, fun _ _ => rfl⟩
    split
    · next hk => rw [hk, hnone]
    · rfl
  · next entry hentry =>
    have hlazy : ∀ d : DatabaseObject, (d.writeMultiRemoveLazy settings env.removeLimits).path = d.path ∧
        (d.writeMultiRemoveLazy settings env.removeLimits).disk = d.disk ∧
        (d.writeMultiRemoveLazy settings env.removeLimits).memory.map = d.memory.map := by
      intro d
      unfold writeMultiRemoveLazy
      split
      · obtain ⟨-, hpath, -, hdisk, hmap⟩ := writeMultiRemove_frame env.removeLimits d
        exact ⟨hpath, hdisk, hmap⟩
      · exact ⟨rfl, rfl, rfl⟩
    obtain ⟨hpath, hdisk, hmap⟩ := hlazy { db with removing := insertKey key db.removing }
    dsimp only
    generalize writeMultiRemoveLazy settings env.removeLimits
      { db with removing := insertKey key db.removing } = d at hpath hdisk hmap ⊢
    have hplace : d.placePath entry.place = db.placePath entry.place := by
      rw [placePath, hpath, placePath]
    have herased : ∀ k, (d.memory.eraseMapEntry key).map.lookup k =
        if k = key then none else db.memory.map.lookup k := fun k => by
      rw [Memory.lookup_eraseMapEntry, hmap]
    split
    · exact ⟨hpath, herased, fun path _ => congrFun hdisk path⟩
    · split
      · refine ⟨hpath, herased, fun path hother => ?_⟩
        have hne : path ≠ d.placePath entry.place := hplace ▸ hother entry hentry
        exact (Function.update_of_ne hne _ _).trans (congrFun hdisk path)
      · exact ⟨hpath, herased, fun path _ => congrFun hdisk path⟩

end DatabaseObject

/-- Nothing fails in the environment of a call. -/
structure Env.Succeeds (env : Env) : Prop where
  limits : env.Limits (· = none)
  dataOpen : env.dataOpen = .success
  dataLimits : ∀ i, env.dataLimits i = none
  fileRemoved : env.fileRemoved = true

namespace Holds

variable {settings : Settings} {env : Env} {key : Key}

theorem recordEntryAccess (h : Holds xxh32 c db) :
    Holds xxh32 c (db.recordEntryAccess settings env key) := by
  obtain ⟨hpath, hdisk, hlookup⟩ := recordEntryAccess_frame settings env key db
  exact h.congr hpath hdisk hlookup

theorem forget (h : Holds xxh32 c db) (key : Key) : Holds xxh32 c (db.forget key) :=
  h.congr rfl rfl fun _ => rfl

variable (settings) in
theorem remove (h : Holds xxh32 c db) (env : Env) (key : Key) :
    Holds xxh32 (c.remove key) (db.remove settings env key).2 := by
  obtain ⟨hpath, hlookup, hdisk⟩ := remove_frame settings env key db
  refine h.update key hpath (fun k hk => ?_) (fun k entry hk hentry => ?_) ?_
    fun k entry entry' hk hentry hentry' => ?_
  · rw [hlookup, if_neg hk]
  · exact hdisk _ fun entry' hentry' heq => hk (h.apart k key entry entry' hentry hentry' heq)
  · rw [hlookup, if_pos rfl]
    exact .none
  · rw [hlookup, if_pos rfl] at hentry'
    cases hentry'

variable (settings) in
theorem remove_error (db : DatabaseObject) (env : Env) (key : Key) :
    (db.remove settings env key).1 = Error.noError ∨
      ((db.remove settings env key).1.type ≠ .none ∧ env.fileRemoved = false) := by
  unfold DatabaseObject.remove
  split
  · exact .inl rfl
  · dsimp only
    split
    · exact .inl rfl
    · cases env.fileRemoved
      · exact .inr ⟨by simp [ioError], rfl⟩
      · exact .inl rfl

end Holds

/-! ## Puts -/

namespace DatabaseObject

variable {settings : Settings} {limit : Option ℕ} {record : Store}

variable (settings limit record) in
theorem writeStore_frame (db : DatabaseObject) :
    (db.writeStore settings limit record).2.path = db.path ∧
      (db.writeStore settings limit record).2.disk = db.disk ∧
      (db.writeStore settings limit record).2.memory =
        if (db.writeStore settings limit record).1
          then (db.memory.processRecordStore settings record).2 else db.memory := by
  unfold writeStore
  split <;> exact ⟨rfl, rfl, rfl⟩

variable (settings record) in
theorem writeStore_granted (hopen : db.binlog.mode.isSome = true) :
    (db.writeStore settings none record).1 = true := by
  rw [writeStore, PlainFile.writeOpen_none hopen]

theorem writeMultiRemove_granted {limits : Fin 2 → Option ℕ} (hlimits : ∀ i, limits i = none)
    (hopen : db.binlog.mode.isSome = true) :
    (db.writeMultiRemove limits).1 = Error.noError ∧
      (db.writeMultiRemove limits).2.binlog.mode.isSome = true := by
  by_cases hne : db.removing = []
  · rw [writeMultiRemove_of_nil limits hne]
    exact ⟨rfl, hopen⟩
  · obtain ⟨hwritten, hmode⟩ := writeBinlog_none hopen hlimits
      (Record.multiHead 0x03 db.removing.length (leBytes 12 0)) (db.removing.flatMap Key.encode)
    rw [writeMultiRemove_of_ne limits hne, if_pos hwritten]
    exact ⟨rfl, hmode ▸ hopen⟩

end DatabaseObject

namespace Holds

variable {settings : Settings} {env : Env} {key : Key}

/-- A record was taken by the log, and the file at its place holds the value. -/
theorem stored (h : Holds xxh32 c db) {limit : Option ℕ} {record : Store} {value : TaggedValue}
    {disk : List Char → Option (List UInt8)} (hvalid : Memory.ValidSize settings record.size)
    (hlog : ((db.forget record.key).writeStore settings limit record).1 = true)
    (hother : ∀ path, path ≠ db.placePath record.place → disk path = db.disk path)
    (hfree : ∀ k entry, k ≠ record.key → db.memory.map.lookup k = some entry →
      db.placePath entry.place ≠ db.placePath record.place)
    (htag : record.tag = value.tag) (hsize : record.size = value.bytes.length)
    (hsum : record.checksum = xxh32 value.bytes)
    (hdata : { db with disk }.readValueData record.place record.size = value.bytes) :
    Holds xxh32 (c.put record.key value)
      { ((db.forget record.key).writeStore settings limit record).2 with disk } := by
  obtain ⟨hpath, hdisk, hmemory⟩ := writeStore_frame settings limit record (db.forget record.key)
  rw [hlog, if_pos rfl] at hmemory
  have hlookup := Memory.lookup_processRecordStore db.memory hvalid
  have hne : value.bytes ≠ [] := by
    intro hnil
    rw [hsize, hnil] at hvalid
    exact hvalid.1 rfl
  rw [Contents.put_of_ne hne]
  generalize (db.forget record.key).writeStore settings limit record = written at *
  have hentry : written.2.memory.map.lookup record.key =
      some (Memory.entryOf settings record db.memory.time.relative) := by
    rw [hmemory]
    exact (hlookup record.key).trans (if_pos rfl)
  refine h.update record.key hpath (fun k hk => ?_) (fun k entry hk hentry => ?_) ?_
    fun k entry entry' hk hk' he' => ?_
  · exact (congrArg (fun m : Memory => m.map.lookup k) hmemory).trans
      ((hlookup k).trans (if_neg hk))
  · exact hother _ (hfree k entry hk hentry)
  · rw [show AList.lookup record.key _ = _ from hentry]
    refine .some ⟨hne, htag, hsize, hsum, ?_⟩
    have hsame : { written.2 with disk }.readValueData record.place record.size =
        { db with disk }.readValueData record.place record.size := by
      apply readValueData_congr
      · exact hpath
      · rfl
    exact hsame.trans hdata
  · rw [show AList.lookup record.key _ = _ from hentry] at he'
    cases he'
    exact hfree k entry hk hk'

/-- A free place is not the place of any entry. -/
theorem free_ne (h : Holds xxh32 c db) {place : PlaceId} (hfree : db.isFreePlace place = true)
    {k : Key} {entry : Entry} (hentry : db.memory.map.lookup k = some entry) :
    db.placePath entry.place ≠ db.placePath place := by
  intro heq
  obtain ⟨value, -, hkeeps⟩ := h.lookup_some hentry
  have hfile := hkeeps.file_isSome
  rw [heq] at hfile
  rw [isFreePlace, Option.isNone_iff_eq_none] at hfree
  simp [hfree] at hfile

/-- The log did not take the record. -/
theorem refused (h : Holds xxh32 c db) {limit : Option ℕ} {record : Store}
    (hlog : (db.writeStore settings limit record).1 = false) :
    Holds xxh32 c (db.writeStore settings limit record).2 := by
  obtain ⟨hpath, hdisk, hmemory⟩ := writeStore_frame settings limit record db
  rw [hlog, if_neg (by simp)] at hmemory
  exact h.congr hpath hdisk fun k => by rw [hmemory]

/-- A file that is not there for any entry but that of the key may be anything when the key goes. -/
theorem lost (h : Holds xxh32 c db) {record : Store} {limit : Option ℕ}
    (hvalid : Memory.ValidSize settings record.size)
    (hlog : ((db.forget record.key).writeStore settings limit record).1 = true)
    (hfree : ∀ k entry, k ≠ record.key → db.memory.map.lookup k = some entry →
      db.placePath entry.place ≠ db.placePath record.place) (left : Option (List UInt8)) :
    Holds xxh32 (c.remove record.key)
      ((((db.forget record.key).writeStore settings limit record).2.setFile
        (db.placePath record.place) left).remove settings env record.key).2 := by
  obtain ⟨hpath, hdisk, hmemory⟩ := writeStore_frame settings limit record (db.forget record.key)
  rw [hlog, if_pos rfl] at hmemory
  have hlookup := Memory.lookup_processRecordStore db.memory hvalid
  generalize (db.forget record.key).writeStore settings limit record = written at *
  have hafter : ∀ k, (written.2.setFile (db.placePath record.place) left).memory.map.lookup k =
      if k = record.key then some (Memory.entryOf settings record db.memory.time.relative)
      else db.memory.map.lookup k := fun k =>
    (congrArg (fun m : Memory => m.map.lookup k) hmemory).trans (hlookup k)
  have hplace : ∀ place, (written.2.setFile (db.placePath record.place) left).placePath place =
      db.placePath place := fun place => congrArg (· ++ placeFromId place) hpath
  obtain ⟨hpath', hlookup', hdisk'⟩ := remove_frame settings env record.key
    (written.2.setFile (db.placePath record.place) left)
  refine h.update record.key (hpath'.trans hpath) (fun k hk => ?_) (fun k entry hk hentry => ?_) ?_
    fun k entry entry' hk hentry hentry' => ?_
  · rw [hlookup', if_neg hk, hafter, if_neg hk]
  · have hother := hfree k entry hk hentry
    rw [hdisk']
    · exact (Function.update_of_ne hother _ _).trans (congrFun hdisk _)
    · intro entry' hentry'
      rw [hafter, if_pos rfl] at hentry'
      cases hentry'
      rwa [hplace]
  · rw [hlookup', if_pos rfl]
    exact .none
  · rw [hlookup', if_pos rfl] at hentry'
    cases hentry'

variable {reliable : Prop}

/-- A record of a value whose place is that of its key or is free. -/
theorem place_ne (h : Holds xxh32 c db) {place : PlaceId}
    (hplace : (∃ already, db.memory.map.lookup key = some already ∧ place = already.place) ∨
      db.isFreePlace place = true) (k : Key) (entry : Entry) (hk : k ≠ key)
    (hentry : db.memory.map.lookup k = some entry) :
    db.placePath entry.place ≠ db.placePath place := by
  rcases hplace with ⟨already, hlookup, rfl⟩ | hfree
  · exact fun heq => hk (h.apart k key entry already hentry hlookup heq)
  · exact h.free_ne hfree hentry

theorem put (h : Holds xxh32 c db) {value : TaggedValue} {error : Error}
    (hreliable : reliable → env.Succeeds ∧ db.binlog.mode.isSome = true)
    (hput : db.put settings xxh32 env key value = some (error, db')) :
    ∃ c', Puts reliable c key value error c' ∧ Holds xxh32 c' db' := by
  by_cases hne : value.bytes = []
  · rw [DatabaseObject.put, if_pos hne, Option.some.injEq] at hput
    have hremoved : Holds xxh32 (c.remove key) db' := by
      have hremove := h.remove settings env key
      rwa [hput] at hremove
    have herror := remove_error settings db env key
    rw [hput] at herror
    rcases herror with hnone | ⟨hfailed, henv⟩
    · dsimp only at hnone
      rw [hnone]
      exact ⟨_, .stored, Contents.put_of_empty hne key c ▸ hremoved⟩
    · exact ⟨_, .lost (fun hr => by simp [(hreliable hr).1.fileRemoved] at henv) hfailed, hremoved⟩
  · rw [DatabaseObject.put, if_neg hne, Option.bind_eq_bind, Option.bind_eq_some_iff] at hput
    obtain ⟨⟨maybepath, db₁⟩, hwrite, hput⟩ := hput
    obtain ⟨hsize, hcases⟩ := writeKeyPlace_cases hwrite
    rcases hcases with ⟨already, hlookup, htag, hlen, -, hdata, rfl, rfl⟩ |
      ⟨place, time, -, hplace, rfl, hpath⟩
    · -- the value is there already, whatever its checksum says
      cases hput
      obtain ⟨kept, hkept, hkeeps⟩ := h.lookup_some hlookup
      have hsame : value = kept := hkeeps.unique htag (by rw [hlen]; exact hdata)
      have hput : c.put key value = c := Contents.put_same hne (hsame ▸ hkept)
      exact ⟨_, .stored, hput.symm ▸ (h.forget key).recordEntryAccess⟩
    · set record : Store := ⟨value.tag, value.bytes.length, place, xxh32 value.bytes, key, time⟩
        with hrecord
      have hvalid : Memory.ValidSize settings record.size := ⟨by simpa [hrecord] using hne, hsize⟩
      have hfree := h.place_ne
        (hplace.imp (fun hold => hold.imp fun _ hsame => ⟨hsame.1, hsame.2.1⟩) And.right)
      have hplacePath : ((db.forget key).writeStore settings env.storeLimit record).2.placePath place =
          db.placePath place := db.placePath_writeStore settings env.storeLimit record place
      cases hlog : ((db.forget key).writeStore settings env.storeLimit record).1 with
      | false =>
        rw [hlog, if_neg (by simp)] at hpath
        subst hpath
        cases hput
        refine ⟨c, .unlogged fun hr => ?_, ((h.forget key).refused hlog).recordEntryAccess⟩
        obtain ⟨henv, hopen⟩ := hreliable hr
        have hgranted := writeStore_granted settings record
          (show (db.forget key).binlog.mode.isSome = true from hopen)
        rw [henv.limits.store, hgranted] at hlog
        cases hlog
      | true =>
        rw [hlog, if_pos rfl, hplacePath] at hpath
        have hnil : db.placePath place ≠ [] := by simp [placePath, placeFromId_ne_nil]
        obtain ⟨first, rest, hcons⟩ := List.exists_cons_of_ne_nil hnil
        subst hpath
        simp only [hcons] at hput
        rw [← hcons] at hput
        have hlost : ∀ left, Holds xxh32 (c.remove key)
            ((((db.forget key).writeStore settings env.storeLimit record).2.setFile
              (db.placePath place) left).remove settings env key).2 :=
          fun left => h.lost hvalid hlog hfree left
        split at hput
        · next hopen =>
          cases hput
          exact ⟨_, .lost (fun hr => by simp [(hreliable hr).1.dataOpen] at hopen)
            (by simp [ioError]), hlost _⟩
        · next hopen =>
          cases hput
          exact ⟨_, .lost (fun hr => by simp [(hreliable hr).1.dataOpen] at hopen) (by simp),
            hlost _⟩
        · split at hput
          · next hwritten =>
            cases hput
            obtain ⟨-, hdisk, -⟩ :=
              writeStore_frame settings env.storeLimit record (db.forget key)
            refine ⟨_, .stored, h.stored hvalid hlog (fun path hother => ?_) hfree rfl rfl rfl ?_⟩
            · exact (Function.update_of_ne hother _ _).trans (congrFun hdisk path)
            · apply readValueData_written
              refine (Function.update_self _ _ _).trans ?_
              rw [PlainFile.writeWithPadding_created hwritten]
          · next hwritten =>
            cases hput
            refine ⟨_, .lost (fun hr => hwritten ?_) (by simp [ioError]), hlost _⟩
            exact PlainFile.writeWithPadding_granted (hreliable hr).1.dataLimits _ _

/-! ## Calls -/

/-- The callback of `get` is given the value of the key. -/
theorem getWith {α : Type} {result : α} {d : DatabaseObject}
    {done : TaggedValue → DatabaseObject → Option (α × DatabaseObject)} (h : Holds xxh32 c db)
    (hget : db.getWith settings xxh32 env key done = some (result, d)) :
    ∃ d', done (c.get key) db = some (result, d') ∧
      (d = d' ∨ d = d'.recordEntryAccess settings env key) := by
  unfold DatabaseObject.getWith at hget
  cases hlookup : db.memory.map.lookup key with
  | none =>
    simp only [hlookup] at hget
    rw [Contents.get, h.lookup_none.mpr hlookup]
    exact ⟨d, hget, .inl rfl⟩
  | some entry =>
    obtain ⟨value, hvalue, hkeeps⟩ := h.lookup_some hlookup
    have hbytes : db.readValueData entry.place entry.size = value.bytes := hkeeps.data
    have hsum : xxh32 value.bytes = entry.checksum := hkeeps.checksum.symm
    simp only [hlookup, hbytes, if_neg hkeeps.bytes, hsum, ne_eq, not_true_eq_false, if_false] at hget
    rw [Option.bind_eq_bind, Option.bind_eq_some_iff] at hget
    obtain ⟨⟨r, d'⟩, hdone, hget⟩ := hget
    cases hget
    refine ⟨d', ?_, .inr rfl⟩
    rw [Contents.get, hvalue, Option.getD_some, ← hdone, hkeeps.tag]

theorem unmap (h : Holds xxh32 c db) (key : Key) : Holds xxh32 (c.remove key) (db.unmap key) := by
  have hlookup := Memory.lookup_eraseMapEntry db.memory key
  refine h.update key rfl (fun k hk => (hlookup k).trans (if_neg hk)) (fun _ _ _ _ => rfl) ?_
    fun k entry entry' hk hentry hentry' => ?_
  · rw [show AList.lookup key (db.unmap key).memory.map = none from (hlookup key).trans (if_pos rfl)]
    exact .none
  · rw [show AList.lookup key (db.unmap key).memory.map = none from
      (hlookup key).trans (if_pos rfl)] at hentry'
    cases hentry'

/-- The entry of the source gets a new key, and its file stays where it is. -/
theorem writeExistingPlace (h : Holds xxh32 c db) (hsized : db.Sized settings) {source target : Key}
    {entry : Entry} {value : TaggedValue} {error : Error} {d : DatabaseObject}
    (hsource : db.memory.map.lookup source = some entry) (hvalue : c source = some value)
    (htarget : c target = none) (hpath : d.path = db.path) (hdisk : d.disk = db.disk)
    (hmap : d.memory.map = (db.unmap source).memory.map)
    (hreliable : reliable → env.Succeeds ∧ d.binlog.mode.isSome = true)
    (hmove : (d.forget target).writeExistingPlace settings env target entry = some (error, db')) :
    ∃ c', Effect reliable c (.moveIfEmpty env source target) (.done error) c' ∧
      Holds xxh32 c' db' := by
  have hheld : Holds xxh32 (c.remove source) d :=
    (h.unmap source).congr hpath hdisk fun k => by rw [hmap]
  have hmoved : ∀ k entry', d.memory.map.lookup k = some entry' →
      k ≠ source ∧ db.memory.map.lookup k = some entry' := by
    intro k entry' hentry'
    rw [hmap, DatabaseObject.unmap, Memory.lookup_eraseMapEntry] at hentry'
    split at hentry'
    · cases hentry'
    · next hk => exact ⟨hk, hentry'⟩
  have hnone : (d.forget target).memory.map.lookup target = none := by
    apply hheld.lookup_none.mp
    by_cases heq : target = source
    · rw [heq, Contents.remove, Function.update_self]
    · rw [Contents.remove, Function.update_of_ne heq, htarget]
  obtain ⟨time, -, rfl, rfl⟩ := writeExistingPlace_cases hnone hmove
  set record : Store := ⟨entry.tag, entry.size, entry.place, entry.checksum, target, time⟩
  cases hlog : ((d.forget target).writeStore settings env.storeLimit record).1 with
  | false =>
    rw [if_neg (by simp)]
    refine ⟨_, .moveLost (fun hr => ?_) (by simp [ioError]), (hheld.forget target).refused hlog⟩
    obtain ⟨henv, hopen⟩ := hreliable hr
    have hgranted := writeStore_granted settings record
      (show (d.forget target).binlog.mode.isSome = true from hopen)
    rw [henv.limits.store, hgranted] at hlog
    cases hlog
  | true =>
    obtain ⟨value', hvalue', hkeeps⟩ := h.lookup_some hsource
    obtain rfl : value' = value := Option.some.inj (hvalue'.symm.trans hvalue)
    obtain ⟨-, hsame, -⟩ := writeStore_frame settings env.storeLimit record (d.forget target)
    have hdata : { d with
        disk := ((d.forget target).writeStore settings env.storeLimit record).2.disk }.readValueData
          entry.place entry.size = value'.bytes := by
      rw [← hkeeps.data]
      apply readValueData_congr
      · exact hpath
      · exact congrFun (hsame.trans hdisk) _
    have hstored := hheld.stored (hsized hsource) hlog (fun path _ => congrFun hsame path)
      (fun k entry' hk hentry' heq => ?_) hkeeps.tag hkeeps.size hkeeps.checksum hdata
    · rw [if_pos rfl]
      have hmove : c.moveIfEmpty source target = (c.remove source).put target value' := by
        rw [Contents.moveIfEmpty, if_neg (by simp [htarget, hvalue]), Contents.get, hvalue,
          Option.getD_some]
      exact ⟨_, .moveIfEmpty, hmove ▸ hstored⟩
    · obtain ⟨hne, hentry⟩ := hmoved k entry' hentry'
      rw [placePath, placePath, hpath] at heq
      exact hne (h.apart k source entry' entry hentry hsource heq)

theorem moveIfEmpty (h : Holds xxh32 c db) (hsized : db.Sized settings) {source target : Key}
    {error : Error} (hreliable : reliable → env.Succeeds ∧ db.binlog.mode.isSome = true)
    (hmove : db.moveIfEmpty settings env source target = some (error, db')) :
    ∃ c', Effect reliable c (.moveIfEmpty env source target) (.done error) c' ∧
      Holds xxh32 c' db' := by
  have hstay : (c target).isSome = true ∨ c source = none →
      Effect reliable c (.moveIfEmpty env source target) (.done Error.noError) c := by
    intro hnothing
    have hsame : c.moveIfEmpty source target = c := if_pos hnothing
    have heffect : Effect reliable c (.moveIfEmpty env source target) (.done Error.noError)
        (c.moveIfEmpty source target) := .moveIfEmpty
    rwa [hsame] at heffect
  unfold DatabaseObject.moveIfEmpty at hmove
  split at hmove
  · next htarget =>
    cases hmove
    obtain ⟨entry, hentry⟩ := Option.isSome_iff_exists.mp htarget
    obtain ⟨value, hvalue, -⟩ := h.lookup_some hentry
    exact ⟨c, hstay (.inl (by rw [hvalue]; rfl)), h⟩
  · next htarget =>
    have htarget : c target = none := h.lookup_none.mpr (by simpa using htarget)
    split at hmove
    · next hsource =>
      cases hmove
      exact ⟨c, hstay (.inr (h.lookup_none.mpr hsource)), h⟩
    · next entry hsource =>
      obtain ⟨value, hvalue, -⟩ := h.lookup_some hsource
      obtain ⟨-, hpath, -, hdisk, hmap⟩ := writeMultiRemove_frame env.removeLimits (db.unmap source)
      have hgranted : reliable →
          ((db.unmap source).writeMultiRemove env.removeLimits).1 = Error.noError ∧
            ((db.unmap source).writeMultiRemove env.removeLimits).2.binlog.mode.isSome = true :=
        fun hr => writeMultiRemove_granted (hreliable hr).1.limits.remove (hreliable hr).2
      dsimp only at hmove
      generalize hflushed : writeMultiRemove env.removeLimits { db with
        removing := insertKey source db.removing
        memory := db.memory.eraseMapEntry source } = flushed at hmove
      change (db.unmap source).writeMultiRemove env.removeLimits = flushed at hflushed
      rw [hflushed] at hpath hdisk hmap hgranted
      obtain ⟨flushError, d⟩ := flushed
      dsimp only at hmove hpath hdisk hmap hgranted
      split at hmove
      · next hfailed =>
        cases hmove
        exact ⟨_, .moveLost (fun hr => hfailed (by rw [(hgranted hr).1]; rfl)) hfailed,
          (h.unmap source).congr hpath hdisk fun k => by rw [hmap]⟩
      · exact h.writeExistingPlace hsized hsource hvalue htarget hpath hdisk hmap
          (fun hr => ⟨(hreliable hr).1, (hgranted hr).2⟩) hmove

end Holds

end Bettergram.Storage.Cache
