import Bettergram.Storage.Cache.LogInvariant

/-! # What a log is read back as

After opening any log the map is the replay of the records before the cursor,
unless the refused record had good parts in front that said something new.
-/

namespace Bettergram.Storage.Cache
open Foundation

variable (settings : Settings)

/-- The good parts of the refused record only repeat what the records before it say. -/
def Repeats (relative : UInt64) (rs : List Record) : Prop :=
  ∀ r, refusedRecord settings rs = some r → ∀ key part,
    ((r.goodParts settings).filter (·.key = key)).getLast? = some part →
      logEntry settings relative (acceptedRecords settings rs) key =
        some (Memory.entryOf settings part relative)

/-- What the reader of a log leaves for a key, the refused record included. -/
def readEntry (relative : UInt64) (rs : List Record) (key : Key) : Option Entry :=
  logEntry settings relative (acceptedRecords settings rs ++ (refusedRecord settings rs).toList) key

variable {settings} {relative : UInt64} {rs : List Record}

theorem refusedRecord_ops {r : Record} (h : refusedRecord settings rs = some r) (key : Key) :
    r.opsAt settings relative key = storeOps settings relative key (r.goodParts settings) := by
  have hrefused : r.Accepted settings = false := by
    have hmem := List.head?_dropWhile_not (Record.Accepted settings) rs
    unfold refusedRecord at h
    rw [h] at hmem
    simpa using hmem
  cases r with
  | store part => rfl
  | multiStore parts => rfl
  | multiRemove keys => cases hrefused
  | multiAccess time keys => cases hrefused

theorem readEntry_eq_iff :
    (∀ key, readEntry settings relative rs key =
      logEntry settings relative (acceptedRecords settings rs) key) ↔
      Repeats settings relative rs := by
  unfold readEntry Repeats
  cases hrefused : refusedRecord settings rs with
  | none => simp
  | some r =>
    have hread : ∀ key, logEntry settings relative (acceptedRecords settings rs ++ (some r).toList) key =
        (((r.goodParts settings).filter (·.key = key)).getLast?).elim
          (logEntry settings relative (acceptedRecords settings rs) key)
          fun part => some (Memory.entryOf settings part relative) := by
      intro key
      rw [logEntry_append, ← replayKey_storeOps, Option.toList_some, logOps, List.flatMap_singleton,
        refusedRecord_ops hrefused]
    constructor
    · rintro h _ ⟨⟩ key part hpart
      have hkey := h key
      rw [hread, hpart] at hkey
      exact hkey.symm
    · intro h key
      rw [hread]
      cases hpart : ((r.goodParts settings).filter (·.key = key)).getLast? with
      | none => rfl
      | some part => exact (h r rfl key part hpart).symm

theorem lookup_replay_start {head : List UInt8} (hrs : ∀ r ∈ rs, r.Readable settings) (key : Key) :
    ((startMemory head).replay settings rs).map.lookup key =
      logEntry settings (startTime head).relative rs key :=
  (Memory.lookup_replay hrs (startMemory_atTime head) key).1

open DatabaseObject

variable {folder : List Char} {disk : List Char → Option (List UInt8)} {head body : List UInt8}
  {mode : OpenMode} {env : OpenEnv}

/-- A log that has just been read: the records before the cursor are the accepted ones, and perhaps
the block that sets the clock back. -/
theorem readBinlog_headed {db : DatabaseObject}
    (hdb : db = (headed folder disk head body mode).readBinlog settings env)
    (hhead : ValidHead settings head) :
    ∃ kept rest new rest', body = kept ++ rest ∧
      IsLog settings kept (acceptedRecords settings (decodeLog settings body)) ∧
      Kept settings head (kept ++ encodeLog settings new) rest'
        (acceptedRecords settings (decodeLog settings body) ++ new) db.binlog ∧
      (db.binlog.mode.isSome = true → rest' = rest.drop (encodeLog settings new).length) ∧
      (∀ r ∈ new, r.Fits settings) ∧
      (∀ key, logOps settings (startTime head).relative key new = []) ∧
      (∀ key, db.memory.map.lookup key =
        readEntry settings (startTime head).relative (decodeLog settings body) key) ∧
      db.memory.AtTime settings (startTime head).relative ∧
      db.removing = [] ∧ db.accessed = [] := by
  obtain ⟨kept, rest, hbody, hlog, hreplay⟩ :=
    replayBinlog_headed settings folder disk body mode hhead.length
  set replayed := (headed folder disk head body mode).replayBinlog settings with hreplayed
  have hkept : Kept settings head kept rest (acceptedRecords settings (decodeLog settings body))
      replayed.binlog := by
    rw [hreplay]
    exact ⟨by rw [hbody, List.append_assoc], hhead, hlog, fun _ => rfl⟩
  have hreadable := acceptedRecords_append_refused_readable settings body
  have hlookup : ∀ key, replayed.memory.map.lookup key =
      readEntry settings (startTime head).relative (decodeLog settings body) key := by
    intro key
    rw [hreplay]
    exact lookup_replay_start hreadable key
  have htime : replayed.memory.AtTime settings (startTime head).relative := by
    rw [hreplay]
    exact (Memory.lookup_replay hreadable (startMemory_atTime head) {}).2
  have hbundles : replayed.removing = [] ∧ replayed.accessed = [] := by
    rw [hreplay]
    exact ⟨rfl, rfl⟩
  obtain ⟨hremoving, haccessed⟩ := hbundles
  change db = replayed.adjustRelativeTime settings env at hdb
  clear_value replayed
  rw [hdb]
  unfold adjustRelativeTime
  split
  · next hback =>
    obtain ⟨new, bytes, rest', hlogs, hnew⟩ := writeMultiAccessBlock_logs
      env.accessLimits env.accessClock hback.1 (by rw [haccessed]; simp) hkept
    obtain ⟨haccessed', hremoving', -⟩ :=
      writeMultiAccessBlock_frame env.accessLimits env.accessClock replayed
    have hblock := writeMultiAccessBlock_eq env.accessLimits env.accessClock replayed
    have hmap : (replayed.writeMultiAccessBlock env.accessLimits env.accessClock).2.memory.map =
        replayed.memory.map := by
      rw [hblock]
      dsimp only
      rw [haccessed]
      split <;> rfl
    have hencoded := hlogs.encoded
    subst hencoded
    refine ⟨kept, rest, new, rest', hbody, hlog, hlogs.log, hlogs.rest, hlogs.fits, fun key => ?_,
      fun key => by rw [hmap, hlookup], fun huntracked => by simp [huntracked] at hback,
      hremoving'.trans hremoving, haccessed'⟩
    rcases hnew with rfl | rfl
    · rfl
    · simp [logOps, Record.opsAt, haccessed]
  · exact ⟨kept, rest, [], rest, hbody, hlog, by simpa using hkept, fun _ => by simp, by simp,
      fun _ => rfl, hlookup, htime, hremoving, haccessed⟩

theorem readBinlog_lookup {db : DatabaseObject}
    (hdb : db = (headed folder disk head body mode).readBinlog settings env)
    (hhead : ValidHead settings head) (key : Key) :
    db.memory.map.lookup key =
      readEntry settings (startTime head).relative (decodeLog settings body) key := by
  obtain ⟨-, -, -, -, -, -, -, -, -, -, hlookup, -⟩ := readBinlog_headed hdb hhead
  exact hlookup key

def sampleHead : List UInt8 := BasicHeader.encode { flags := 1, systemTime := 100 }

def sampleKey (n : UInt8) : Key := { low := n.toUInt64 }

def sampleStore (n : UInt8) (size : ℕ) : Store where
  tag := 1
  size := size
  place := Vector.replicate 7 n
  checksum := 0
  key := sampleKey n
  time := { relative := 100, system := 100 }

/-- A closed log with these records and bytes behind the header. -/
def sampleLog (rs : List Record) (behind : List UInt8) : DatabaseObject where
  binlog := {
    data := sampleHead ++ encodeLog .initial rs ++ behind
    cursor := 0
    mode := none }

/-- The second part of the only record is empty. -/
def halfGood : List Record := [.multiStore [sampleStore 1 5, sampleStore 2 0]]

end Bettergram.Storage.Cache
