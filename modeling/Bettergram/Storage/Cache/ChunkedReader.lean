import Bettergram.Storage.Cache.LogReading

/-! # The buffer of the reader

`BinlogWrapper` with its buffer. What is not parsed yet is a span of the buffer; before each
read it is moved to the front, and the bytes read come behind it. A read may be short: the
device gives up to a limit of bytes, of which whole blocks are kept.
-/

namespace Bettergram.Storage.Cache
open Foundation

/-- What `CheckSettings` asserts for the records of the log, and what is asserted of the settings
of the database. -/
def CheckSettings (settings : Settings) (readBlockSize : ℕ) : Prop :=
  let store := Store.sizeOf settings.trackEstimatedTime
  store ≤ readBlockSize ∧ 16 + settings.maxBundledRecords * store ≤ readBlockSize ∧
    16 + settings.maxBundledRecords * 16 ≤ readBlockSize

instance (settings : Settings) (readBlockSize : ℕ) :
    Decidable (CheckSettings settings readBlockSize) :=
  inferInstanceAs (Decidable (_ ∧ _ ∧ _))

structure BufferedWrapper where
  binlog : PlainFile
  till : ℤ
  full : List UInt8
  partFrom : ℕ := 0
  partSize : ℕ := 0
  finished : Bool := false
  failed : Bool := false

namespace BufferedWrapper

def create (binlog : PlainFile) (readBlockSize : ℕ) (till : ℤ) : BufferedWrapper where
  binlog := binlog
  till := if till = 0 then binlog.size else till
  full := List.replicate readBlockSize 0

def part (w : BufferedWrapper) : List UInt8 := (w.full.drop w.partFrom).take w.partSize

def finish (rollback : ℕ) (w : BufferedWrapper) : BufferedWrapper :=
  { w with
    failed := w.failed || decide (0 < rollback)
    binlog := w.binlog.seek (w.binlog.offset - (rollback + w.partSize)) }

/-- The part at the front of the buffer. -/
def moved (w : BufferedWrapper) : BufferedWrapper :=
  if w.partSize ≠ 0 ∧ w.partFrom ≠ 0 then
    { w with full := overwrite w.full 0 w.part, partFrom := 0 }
  else w

/-- `none` is a failed `Assert`, or a failed `Expects` of the read. -/
def readPart (limit : Option ℕ) (w : BufferedWrapper) : Option (Bool × BufferedWrapper) :=
  if w.finished then some (false, w)
  else
    let left := w.till - w.binlog.offset
    if left = 0 then some (false, w.finish 0)
    else
      let w := w.moved
      let amount := min left (w.full.length - w.partSize)
      if amount ≤ 0 ∨ amount % kBlockSize ≠ 0 then none
      else
        let (bytes, binlog) := w.binlog.read (QFile.taken limit amount.toNat)
        let w := { w with binlog }
        if bytes = [] then some (false, w.finish 0)
        else some (true, { w with
          full := overwrite w.full w.partSize bytes
          partFrom := 0
          partSize := w.partSize + bytes.length })

def readRecord (settings : Settings) (w : BufferedWrapper) : List UInt8 × BufferedWrapper :=
  if w.finished then ([], w)
  else
    match readRecordSize settings w.part with
    | .unknown => ([], w)
    | .invalid => ([], { w.finish 0 with finished := true, failed := true })
    | .exact size =>
      if w.partSize < size then ([], w)
      else (w.part.take size,
        { w with partFrom := w.partFrom + size, partSize := w.partSize - size })

variable {σ : Type} (settings : Settings) (handle : List UInt8 → σ → Bool × σ)

def handleRecords : ℕ → BufferedWrapper → σ → Bool × BufferedWrapper × σ
  | 0, w, s => (false, w, s)
  | fuel + 1, w, s =>
    match w.readRecord settings with
    | ([], w) => (false, w, s)
    | (bytes, w) =>
      match handle bytes s with
      | (false, s) => (true, w.finish bytes.length, s)
      | (true, s) => handleRecords fuel w s

def readTillEnd (limit : Option ℕ) (w : BufferedWrapper) (s : σ) :
    Option (Bool × BufferedWrapper × σ) := do
  let (more, w) ← w.readPart limit
  if more then some (handleRecords settings handle (w.partSize + 1) w s) else some (true, w, s)

/-- `readBinlogHelper` with as many rounds as there is fuel; whether the last one was done. -/
def readAll : ℕ → (ℕ → Option ℕ) → BufferedWrapper → σ → Option (Bool × BufferedWrapper × σ)
  | 0, _, w, s => some (false, w, s)
  | fuel + 1, limits, w, s => do
    let (done, w, s) ← readTillEnd settings handle (limits 0) w s
    if done then some (true, w, s) else readAll fuel (fun i => limits (i + 1)) w s

/-! ## The buffer and the part alone -/

/-- The wrapper with its part as bytes. -/
def unbuffered (w : BufferedWrapper) : BinlogWrapper where
  binlog := w.binlog
  till := w.till.toNat
  part := w.part
  finished := w.finished
  failed := w.failed

/-- The part is inside the buffer. -/
def Inside (w : BufferedWrapper) : Prop := w.partFrom + w.partSize ≤ w.full.length

variable {w : BufferedWrapper} {settings handle}

theorem Inside.part_length (h : w.Inside) : w.part.length = w.partSize := by
  rw [part, List.length_take, List.length_drop]
  have hle : w.partFrom + w.partSize ≤ w.full.length := h
  omega

theorem Inside.finish_unbuffered (h : w.Inside) (rollback : ℕ) :
    (w.finish rollback).unbuffered = w.unbuffered.finish rollback := by
  have hlength := h.part_length
  rw [unbuffered, finish, BinlogWrapper.finish]
  simp only [part] at hlength ⊢
  simp only [unbuffered, part, hlength]

variable (settings) in
theorem Inside.readRecord (h : w.Inside) :
    (w.readRecord settings).1 = (w.unbuffered.readRecord settings).1 ∧
      (w.readRecord settings).2.unbuffered = (w.unbuffered.readRecord settings).2 ∧
      (w.readRecord settings).2.Inside ∧ (w.readRecord settings).2.full = w.full := by
  have hlength := h.part_length
  have hle : w.partFrom + w.partSize ≤ w.full.length := h
  have hpart : w.unbuffered.part = w.part := rfl
  have hfinished : w.unbuffered.finished = w.finished := rfl
  rw [BufferedWrapper.readRecord, BinlogWrapper.readRecord, hpart, hfinished]
  by_cases hrun : w.finished = true
  · rw [if_pos hrun, if_pos hrun]
    exact ⟨rfl, rfl, h, rfl⟩
  rw [if_neg hrun, if_neg hrun]
  cases readRecordSize settings w.part with
  | unknown => exact ⟨rfl, rfl, h, rfl⟩
  | invalid =>
    refine ⟨rfl, ?_, h, rfl⟩
    simp only
    rw [← h.finish_unbuffered 0]
    rfl
  | exact size =>
    simp only [hlength]
    by_cases hshort : w.partSize < size
    · rw [if_pos hshort, if_pos hshort]
      exact ⟨rfl, rfl, h, rfl⟩
    · rw [if_neg hshort, if_neg hshort]
      refine ⟨rfl, ?_, ?_, rfl⟩
      · simp only [unbuffered, part, List.drop_take, List.drop_drop]
      · change w.partFrom + size + (w.partSize - size) ≤ w.full.length
        omega

variable (settings handle) in
/-- Cutting records off the buffer is cutting them off the part. -/
theorem Inside.handleRecords (h : w.Inside) (fuel : ℕ) (s : σ) :
    let r := handleRecords settings handle fuel w s
    (r.1, r.2.1.unbuffered, r.2.2) =
        BinlogReader.handleRecords settings handle fuel w.unbuffered s ∧
      r.2.1.Inside ∧ r.2.1.full.length = w.full.length := by
  induction fuel generalizing w s with
  | zero => exact ⟨rfl, h, rfl⟩
  | succ fuel ih =>
    obtain ⟨hbytes, hunbuffered, hinside, hfull⟩ := h.readRecord settings
    simp only [BufferedWrapper.handleRecords, BinlogReader.handleRecords]
    generalize w.readRecord settings = read at hbytes hunbuffered hinside hfull
    obtain ⟨bytes, w'⟩ := read
    simp only at hbytes hunbuffered hinside hfull
    rw [← Prod.mk.eta (p := w.unbuffered.readRecord settings), ← hbytes, ← hunbuffered, ← hfull]
    cases bytes with
    | nil => exact ⟨rfl, hinside, rfl⟩
    | cons b rest =>
      simp only
      rcases handle (b :: rest) s with ⟨_ | _, s'⟩
      · simp only
        rw [hinside.finish_unbuffered]
        exact ⟨rfl, hinside, rfl⟩
      · exact ih hinside s'

/-- Moving the part does not change it. -/
theorem Inside.moved (h : w.Inside) :
    w.moved.part = w.part ∧ w.moved.partSize = w.partSize ∧ w.moved.Inside ∧
      w.moved.full.length = w.full.length ∧ w.moved.binlog = w.binlog ∧ w.moved.till = w.till ∧
      w.moved.finished = w.finished ∧ w.moved.failed = w.failed ∧
      (w.partSize ≠ 0 → w.moved.partFrom = 0) := by
  have hlength := h.part_length
  have hle : w.partFrom + w.partSize ≤ w.full.length := h
  unfold BufferedWrapper.moved
  split_ifs with hmove
  · have hfull : (overwrite w.full 0 w.part).length = w.full.length := by
      rw [length_overwrite _ _ (Nat.zero_le _), hlength]
      omega
    have hfront := take_overwrite w.full w.part (Nat.zero_le _)
    rw [Nat.zero_add, hlength, List.take_zero, List.nil_append] at hfront
    refine ⟨hfront, rfl, ?_, hfull, rfl, rfl, rfl, rfl, fun _ => rfl⟩
    change 0 + w.partSize ≤ (overwrite w.full 0 w.part).length
    omega
  · refine ⟨rfl, rfl, h, rfl, rfl, rfl, rfl, rfl, fun hsize => ?_⟩
    by_contra hfrom
    exact hmove ⟨hsize, hfrom⟩

/-- The bytes read come behind the part. -/
theorem Inside.readPart (h : w.Inside) (hrun : w.finished = false) (limit : Option ℕ) {amount : ℕ}
    (hpos : 0 < amount) (hwhole : amount % kBlockSize = 0)
    (hamount : (amount : ℤ) = min (w.till - w.binlog.cursor) (w.full.length - w.partSize))
    (hbytes : w.binlog.peek (QFile.taken limit amount) ≠ []) :
    ∃ w', w.readPart limit = some (true, w') ∧
      w'.unbuffered = { w.unbuffered with
        binlog := w.binlog.seek
          (w.binlog.cursor + (w.binlog.peek (QFile.taken limit amount)).length)
        part := w.part ++ w.binlog.peek (QFile.taken limit amount) } ∧
      w'.Inside ∧ w'.full.length = w.full.length ∧
      w'.partSize = (w.part ++ w.binlog.peek (QFile.taken limit amount)).length := by
  obtain ⟨hpart, hsize, hinside, hfull, hbinlog, htill, hfinished, hfailed, hfrom⟩ := h.moved
  have hlength := h.part_length
  have hle : w.partFrom + w.partSize ≤ w.full.length := h
  have hleft : ¬w.till - w.binlog.offset = 0 := by
    change ¬w.till - w.binlog.cursor = 0
    omega
  have hmin : min (w.till - w.binlog.offset) (w.moved.full.length - w.moved.partSize) =
      (amount : ℤ) := by
    rw [hamount, hfull, hsize]
    rfl
  have hmod : (amount : ℤ) % kBlockSize = 0 := by
    exact_mod_cast hwhole
  have hread : w.readPart limit = some (true, { w.moved with
      binlog := w.binlog.seek
        (w.binlog.cursor + (w.binlog.peek (QFile.taken limit amount)).length)
      full := overwrite w.moved.full w.partSize (w.binlog.peek (QFile.taken limit amount))
      partFrom := 0
      partSize := w.partSize + (w.binlog.peek (QFile.taken limit amount)).length }) := by
    simp only [BufferedWrapper.readPart, hrun, Bool.false_eq_true, if_false]
    rw [if_neg hleft, hmin, if_neg (not_or.mpr ⟨by omega, not_not.mpr hmod⟩), Int.toNat_natCast,
      hbinlog, PlainFile.read, if_neg hbytes, hsize]
    rfl
  have hfits : w.partSize + (w.binlog.peek (QFile.taken limit amount)).length ≤
      w.full.length := by
    have hpeek : (w.binlog.peek (QFile.taken limit amount)).length ≤ amount := by
      rw [PlainFile.peek, List.length_take, List.length_take]
      have htaken : QFile.taken limit amount ≤ amount := min_le_right _ _
      omega
    omega
  have hfront : w.moved.full.take w.partSize = w.part := by
    rw [← hpart, BufferedWrapper.part, hsize]
    by_cases hzero : w.partSize = 0
    · rw [hzero, List.take_zero, List.take_zero]
    · rw [hfrom hzero, List.drop_zero]
  have hwithin : w.partSize ≤ w.moved.full.length := by omega
  refine ⟨_, hread, ?_, ?_, ?_, ?_⟩
  · simp only [unbuffered, BufferedWrapper.part, List.drop_zero, take_overwrite _ _ hwithin,
      hfront, htill, hfinished, hfailed]
  · change 0 + (w.partSize + _) ≤ (overwrite _ _ _).length
    rw [length_overwrite _ _ hwithin]
    omega
  · change (overwrite _ _ _).length = _
    rw [length_overwrite _ _ hwithin]
    omega
  · rw [List.length_append, hlength]

end BufferedWrapper

end Bettergram.Storage.Cache
