import Bettergram.Foundation.Records
import Bettergram.Storage.PlainFile
import Bettergram.Storage.Cache.Types

/-! # Reading the log

`BinlogWrapper` reads the log in blocks and keeps the unparsed part of the last
block; `BinlogReader` cuts records off it and hands them to the handlers. Loops
take their fuel from the bytes that are left.
-/

namespace Bettergram.Storage.Cache
open Foundation

/-- The `sizeof` of a record with its parts, as far as the front of the data tells. -/
def readMultiSize (settings : Settings) (strict : Bool) (part : ℕ) (data : List UInt8) :
    FrontSize :=
  if data.length < 16 then .unknown
  else
    let count := field 1 3 data
    if (strict ∧ count = 0) ∨ settings.maxBundledRecords < count then .invalid
    else .exact (16 + count * part)

/-- `kRecordSizeUnknown` and `kRecordSizeInvalid` are constructors here. -/
def readRecordSize (settings : Settings) (data : List UInt8) : FrontSize :=
  match data.head? with
  | none => .unknown
  | some type =>
    if type = 0x01 then .exact (Store.sizeOf settings.trackEstimatedTime)
    else if type = 0x02 then
      readMultiSize settings true (Store.sizeOf settings.trackEstimatedTime) data
    else if type = 0x03 then readMultiSize settings true 16 data
    else if type = 0x04 ∧ settings.trackEstimatedTime then readMultiSize settings false 16 data
    else .invalid

structure BinlogWrapper where
  binlog : PlainFile
  till : ℕ
  part : List UInt8
  finished : Bool
  failed : Bool

namespace BinlogWrapper

def create (binlog : PlainFile) (till : ℕ) : BinlogWrapper where
  binlog := binlog
  till := if till = 0 then binlog.size else till
  part := []
  finished := false
  failed := false

def readHeader (settings : Settings) (binlog : PlainFile) : Option BasicHeader × PlainFile :=
  if binlog.offset ≠ 0 then (none, binlog)
  else
    let (bytes, binlog) := binlog.read 16
    let header := BasicHeader.decode bytes
    if bytes.length = 16 ∧ header.format = 0 ∧ settings.trackEstimatedTime = header.tracked then
      (some header, binlog)
    else (none, binlog)

/-- Seek back to before the unparsed part and the refused record. -/
def finish (rollback : ℕ) (w : BinlogWrapper) : BinlogWrapper :=
  { w with
    failed := w.failed || decide (0 < rollback)
    binlog := w.binlog.seek (w.binlog.offset - (rollback + w.part.length)) }

def readPart (settings : Settings) (w : BinlogWrapper) : Bool × BinlogWrapper :=
  if w.finished then (false, w)
  else
    let left := w.till - w.binlog.offset
    if left = 0 then (false, w.finish 0)
    else
      let amount := min left (settings.readBlockSize - w.part.length)
      let (bytes, binlog) := w.binlog.read amount
      let w := { w with binlog }
      if bytes = [] then (false, w.finish 0) else (true, { w with part := w.part ++ bytes })

/-- The bytes of the next record, or nothing. -/
def readRecord (settings : Settings) (w : BinlogWrapper) : List UInt8 × BinlogWrapper :=
  if w.finished then ([], w)
  else
    match readRecordSize settings w.part with
    | .unknown => ([], w)
    | .invalid => ([], { w.finish 0 with finished := true, failed := true })
    | .exact size =>
      if w.part.length < size then ([], w)
      else (w.part.take size, { w with part := w.part.drop size })

end BinlogWrapper

namespace BinlogReader

variable {σ : Type} (settings : Settings) (handle : List UInt8 → σ → Bool × σ)

/-- The loop over the records of one part; `true` when a handler refused a record. -/
def handleRecords : ℕ → BinlogWrapper → σ → Bool × BinlogWrapper × σ
  | 0, w, s => (false, w, s)
  | fuel + 1, w, s =>
    match w.readRecord settings with
    | ([], w) => (false, w, s)
    | (bytes, w) =>
      match handle bytes s with
      | (false, s) => (true, w.finish bytes.length, s)
      | (true, s) => handleRecords fuel w s

/-- Whether there is nothing more to read, or a record was refused. -/
def readTillEnd (w : BinlogWrapper) (s : σ) : Bool × BinlogWrapper × σ :=
  match w.readPart settings with
  | (false, w) => (true, w, s)
  | (true, w) => handleRecords settings handle (w.part.length + 1) w s

/-- `readBinlogHelper`; every round but the last reads at least a byte. -/
def readAll : ℕ → BinlogWrapper → σ → BinlogWrapper × σ
  | 0, w, s => (w, s)
  | fuel + 1, w, s =>
    match readTillEnd settings handle w s with
    | (true, w, s) => (w, s)
    | (false, w, s) => readAll fuel w s

end BinlogReader

end Bettergram.Storage.Cache
