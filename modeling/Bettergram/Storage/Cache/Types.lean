import Bettergram.Foundation.LittleEndian
import Mathlib.Data.List.AList

/-! # Cache records and their bytes

The structures of the cache log in memory layout: little-endian integers at
fixed offsets, every record a whole number of cipher blocks. With
`trackEstimatedTime` a `Store` carries its time point; without it the time
point is absent from the bytes and stays at its default here.
-/

namespace Bettergram.Storage.Cache
open Foundation

structure Key where
  high : UInt64 := 0
  low : UInt64 := 0
  deriving DecidableEq

/-- The order of the sets of keys. -/
def Key.le (a b : Key) : Prop := a.high < b.high ∨ (a.high = b.high ∧ a.low ≤ b.low)

instance (a b : Key) : Decidable (a.le b) := by
  unfold Key.le
  infer_instance

abbrev PlaceId := Vector UInt8 7

def kBundledRecordsLimit : ℕ := 2 ^ 24
def kDataSizeLimit : ℕ := 2 ^ 24

/-- The settings the modelled code reads, with what `checkSettings`, the reader's
`CheckSettings` and the compactor's constructor assert about them. -/
structure Settings where
  maxBundledRecords : ℕ
  readBlockSize : ℕ
  maxDataSize : ℕ
  writeBundleDelay : UInt64
  staleRemoveChunk : ℕ
  compactAfterExcess : ℤ
  compactAfterFullSize : ℤ
  compactChunkSize : ℕ
  trackEstimatedTime : Bool
  totalSizeLimit : ℤ
  totalTimeLimit : UInt64
  staleRemoveChunk_pos : 0 < staleRemoveChunk
  maxDataSize_pos : 0 < maxDataSize
  maxDataSize_lt : maxDataSize < kDataSizeLimit
  maxBundledRecords_pos : 0 < maxBundledRecords
  maxBundledRecords_lt : maxBundledRecords < kBundledRecordsLimit
  totalSizeLimit_ok : totalSizeLimit = 0 ∨ (maxDataSize : ℤ) < totalSizeLimit
  readBlockSize_ge : 16 + maxBundledRecords * 48 ≤ readBlockSize
  readBlockSize_whole : readBlockSize % 16 = 0
  compactChunkSize_pos : 0 < compactChunkSize

namespace Settings

/-- The values the source starts from. -/
def initial : Settings where
  maxBundledRecords := 16 * 1024
  readBlockSize := 8 * 1024 * 1024
  maxDataSize := kDataSizeLimit - 1
  writeBundleDelay := 15 * 60 * 1000
  staleRemoveChunk := 256
  compactAfterExcess := 8 * 1024 * 1024
  compactAfterFullSize := 0
  compactChunkSize := 16 * 1024
  trackEstimatedTime := true
  totalSizeLimit := 1024 * 1024 * 1024
  totalTimeLimit := 31 * 24 * 60 * 60
  staleRemoveChunk_pos := by decide
  maxDataSize_pos := by decide
  maxDataSize_lt := by decide
  maxBundledRecords_pos := by decide
  maxBundledRecords_lt := by decide
  totalSizeLimit_ok := by decide
  readBlockSize_ge := by decide
  readBlockSize_whole := by decide
  compactChunkSize_pos := by decide

end Settings

structure TaggedValue where
  bytes : List UInt8 := []
  tag : UInt8 := 0
  deriving DecidableEq

structure TaggedSummary where
  count : ℤ := 0
  totalSize : ℤ := 0
  deriving DecidableEq

/-- `relative1` and `relative2` are the halves of `relative`. -/
structure EstimatedTimePoint where
  relative : UInt64 := 0
  system : UInt32 := 0
  deriving DecidableEq

/-- A `Store`, or a `StoreWithTime` when time is tracked. -/
structure Store where
  tag : UInt8
  size : ℕ
  place : PlaceId
  checksum : UInt32
  key : Key
  time : EstimatedTimePoint := {}
  deriving DecidableEq

inductive Record where
  | store (record : Store)
  | multiStore (parts : List Store)
  | multiRemove (keys : List Key)
  | multiAccess (time : EstimatedTimePoint) (keys : List Key)
  deriving DecidableEq

structure BasicHeader where
  format : UInt8 := 0
  flags : ℕ := 0
  systemTime : UInt32 := 0
  deriving DecidableEq

/-! ## Fields at offsets -/

/-- The number in a field of `w` bytes at offset `o`. -/
def field (o w : ℕ) (bs : List UInt8) : ℕ := leNat ((bs.drop o).take w)

def Key.encode (k : Key) : List UInt8 := leBytes 8 k.high.toNat ++ leBytes 8 k.low.toNat

def Key.decode (bs : List UInt8) : Key where
  high := UInt64.ofNat (field 0 8 bs)
  low := UInt64.ofNat (field 8 8 bs)

def EstimatedTimePoint.encode (t : EstimatedTimePoint) : List UInt8 :=
  leBytes 8 t.relative.toNat ++ leBytes 4 t.system.toNat

def EstimatedTimePoint.decode (bs : List UInt8) : EstimatedTimePoint where
  relative := UInt64.ofNat (field 0 8 bs)
  system := UInt32.ofNat (field 8 4 bs)

namespace Store

/-- `sizeof(Store)` or `sizeof(StoreWithTime)`. -/
def sizeOf (tracked : Bool) : ℕ := if tracked then 48 else 32

def encode (tracked : Bool) (r : Store) : List UInt8 :=
  [0x01, r.tag] ++ leBytes 3 r.size ++ r.place.toList ++ leBytes 4 r.checksum.toNat ++
    r.key.encode ++ if tracked then r.time.encode ++ leBytes 4 0 else []

def decode (tracked : Bool) (bs : List UInt8) : Store where
  tag := bs.getD 1 0
  size := field 2 3 bs
  place := Vector.ofFn fun i => bs.getD (5 + i) 0
  checksum := UInt32.ofNat (field 12 4 bs)
  key := Key.decode (bs.drop 16)
  time := if tracked then EstimatedTimePoint.decode (bs.drop 32) else {}

end Store

/-- Parts of `w` bytes each. -/
def decodeParts {α : Type} (w : ℕ) (decode : List UInt8 → α) : ℕ → List UInt8 → List α
  | 0, _ => []
  | n + 1, bs => decode (bs.take w) :: decodeParts w decode n (bs.drop w)

namespace BasicHeader

def kTrackEstimatedTime : ℕ := 1

def encode (h : BasicHeader) : List UInt8 :=
  h.format :: leBytes 3 h.flags ++ leBytes 4 h.systemTime.toNat ++ leBytes 4 0 ++ leBytes 4 0

def decode (bs : List UInt8) : BasicHeader where
  format := bs.getD 0 0
  flags := field 1 3 bs
  systemTime := UInt32.ofNat (field 4 4 bs)

def tracked (h : BasicHeader) : Bool := h.flags % 2 = kTrackEstimatedTime

end BasicHeader

namespace Record

def multiHead (type : UInt8) (count : ℕ) (rest : List UInt8) : List UInt8 :=
  type :: leBytes 3 count ++ rest

def encode (tracked : Bool) : Record → List UInt8
  | store record => record.encode tracked
  | multiStore parts =>
    multiHead 0x02 parts.length (leBytes 12 0) ++ parts.flatMap (Store.encode tracked)
  | multiRemove keys => multiHead 0x03 keys.length (leBytes 12 0) ++ keys.flatMap Key.encode
  | multiAccess time keys => multiHead 0x04 keys.length time.encode ++ keys.flatMap Key.encode

/-- The record in the bytes the reader cut off; the reader has checked its type. -/
def decode (tracked : Bool) (bs : List UInt8) : Record :=
  let parts := bs.drop 16
  let count := field 1 3 bs
  if bs.headD 0 = 0x01 then store (Store.decode tracked bs)
  else if bs.headD 0 = 0x02 then
    multiStore (decodeParts (Store.sizeOf tracked) (Store.decode tracked) count parts)
  else if bs.headD 0 = 0x03 then multiRemove (decodeParts 16 Key.decode count parts)
  else multiAccess (EstimatedTimePoint.decode (bs.drop 4)) (decodeParts 16 Key.decode count parts)

end Record

end Bettergram.Storage.Cache
