import Bettergram.Core.HashMd5
import Bettergram.Foundation.DataStream
import Mathlib.Logic.Function.Basic

/-! # The files of local storage

A name stands for two files, the one that ends in 0 and the one that ends in 1.
A descriptor writes magic, version, a stream of byte arrays and the signature
to the older of them and removes the other at the end; `readFile` tries the
newer first. A device may take a part of what is written.
-/

namespace Bettergram.Storage.Local

open Foundation Core

/-- A null array has no bytes either, but it is not an empty one. -/
abbrev QByteArray := Option (List UInt8)

def QByteArray.bytes (data : QByteArray) : List UInt8 := data.getD []

def tdfMagic : List UInt8 := [0x54, 0x44, 0x46, 0x24]

def appVersion : Int32 := 1006002

/-- The last letter of a file name. -/
inductive Slot
  | zero
  | one
deriving DecidableEq

def Slot.other : Slot → Slot
  | .zero => .one
  | .one => .zero

theorem Slot.other_ne (slot : Slot) : slot.other ≠ slot := by cases slot <;> decide

theorem Slot.eq_other {slot other : Slot} (hne : other ≠ slot) : other = slot.other := by
  cases slot <;> cases other <;> first | rfl | exact absurd rfl hne

structure Copy where
  bytes : List UInt8
  modified : ℕ
deriving DecidableEq

/-- The files that exist under one name. -/
abbrev Disk := Slot → Option Copy

def Disk.empty : Disk := fun _ => none

def Disk.remove (disk : Disk) (toDelete : Option Slot) : Disk :=
  match toDelete with
  | none => disk
  | some slot => Function.update disk slot none

/-- How much write call `n` takes; `none` stands for all of it. -/
abbrev Device := ℕ → Option ℕ

def taken (limit : Option ℕ) (bytes : List UInt8) : List UInt8 :=
  match limit with
  | none => bytes
  | some count => bytes.take count

structure FileWriteDescriptor where
  name : Slot
  toDelete : Option Slot
  isOpen : Bool
  file : List UInt8
  calls : ℕ
  streamOk : Bool
  md5 : HashMd5
  dataSize : Int32

/-- The name to write and the name to delete. -/
def writeOrder (safe : Bool) (disk : Disk) : Slot × Option Slot :=
  if safe then
    match disk .zero, disk .one with
    | some c0, some c1 =>
      if c1.modified < c0.modified then (.one, some .zero) else (.zero, some .one)
    | some _, none => (.one, some .zero)
    | none, some _ => (.zero, some .one)
    | none, none => (.zero, none)
  else (.zero, none)

namespace FileWriteDescriptor

variable (transform : Compression) (device : Device)

/-- A write to the file itself; its result is not looked at. -/
def write (d : FileWriteDescriptor) (bytes : List UInt8) : FileWriteDescriptor :=
  { d with file := d.file ++ taken (device d.calls) bytes, calls := d.calls + 1 }

/-- A write through the stream, which stops after one that was not taken whole. -/
def streamWrite (d : FileWriteDescriptor) (bytes : List UInt8) : FileWriteDescriptor :=
  if d.streamOk then
    { d.write device bytes with streamOk := (taken (device d.calls) bytes).length = bytes.length }
  else d

def init (safe opens : Bool) (disk : Disk) : FileWriteDescriptor :=
  let order := writeOrder safe disk
  let d : FileWriteDescriptor :=
    { name := order.1, toDelete := order.2, isOpen := opens, file := [], calls := 0,
      streamOk := true, md5 := HashMd5.init, dataSize := 0 }
  if opens then (d.write device tdfMagic).write device (wordBytes appVersion) else d

/-- `stream << data`. -/
def streamData (d : FileWriteDescriptor) (data : QByteArray) : FileWriteDescriptor :=
  match data with
  | none => d.streamWrite device (DataStream.writeInt32 (-1))
  | some bytes =>
    let d := d.streamWrite device (DataStream.writeInt32 (Int32.ofNat bytes.length))
    if bytes.length = 0 then d else d.streamWrite device bytes

/-- The length that goes into the signature, in the order of the stream. -/
def lengthBytes (data : QByteArray) : List UInt8 :=
  DataStream.writeInt32 (data.elim (-1) fun bytes => Int32.ofNat bytes.length)

def writeData (d : FileWriteDescriptor) (data : QByteArray) : FileWriteDescriptor :=
  if d.isOpen then
    let d := d.streamData device data
    { d with
      md5 := (d.md5.feed transform (lengthBytes data)).feed transform data.bytes
      dataSize := d.dataSize + Int32.ofNat (4 + data.bytes.length) }
  else d

/-- The signature goes out last. -/
def sign (d : FileWriteDescriptor) : FileWriteDescriptor :=
  if d.isOpen then
    let md5 := d.md5.feed transform (wordBytes d.dataSize)
    let md5 := md5.feed transform (wordBytes appVersion)
    let md5 := md5.feed transform tdfMagic
    d.write device (md5.result transform)
  else d

/-- The descriptor of a whole write, up to the removal of the old file. -/
def ofArrays (safe opens : Bool) (disk : Disk) (arrays : List QByteArray) : FileWriteDescriptor :=
  (arrays.foldl (writeData transform device) (init device safe opens disk)).sign transform device

/-- The files once the device has got so much of the new one. -/
def store (d : FileWriteDescriptor) (disk : Disk) (bytes : List UInt8) (now : ℕ) : Disk :=
  if d.isOpen then Function.update disk d.name (some ⟨bytes, now⟩) else disk

/-- The files after `finish`. -/
def finish (d : FileWriteDescriptor) (disk : Disk) (now : ℕ) : Disk :=
  if d.isOpen then (d.store disk d.file now).remove d.toDelete else disk

end FileWriteDescriptor

structure FileRead where
  version : Int32
  data : List UInt8
deriving DecidableEq

section Read

variable (transform : Compression)

/-- One round of the loop of `readFile`: magic, version, size and signature. -/
def readCopy (bytes : List UInt8) : Option FileRead :=
  let magic := bytes.take 4
  if magic.length ≠ 4 then none
  else if magic ≠ tdfMagic then none
  else
    let word := (bytes.drop 4).take 4
    if word.length ≠ 4 then none
    else
      let version := (UInt32.ofNat (leNat word)).toInt32
      if appVersion < version then none
      else
        let bytes := bytes.drop 8
        if bytes.length < 16 then none
        else
          let dataSize := bytes.length - 16
          let md5 := HashMd5.init.feed transform (bytes.take dataSize)
          let md5 := md5.feed transform (leBytes 4 dataSize)
          let md5 := md5.feed transform word
          let md5 := md5.feed transform magic
          if md5.result transform ≠ (bytes.drop dataSize).take 16 then none
          else some ⟨version, bytes.take dataSize⟩

/-- The file to try first, and the other one when there are two. -/
def readOrder (safe : Bool) (disk : Disk) : Slot × Option Slot :=
  if safe then
    match disk .zero, disk .one with
    | some c0, some c1 =>
      if c0.modified < c1.modified then (.one, some .zero) else (.zero, some .one)
    | some _, none => (.zero, none)
    | none, _ => (.one, none)
  else (.zero, none)

def readSlot (disk : Disk) (slot : Slot) : Option FileRead :=
  (disk slot).bind fun copy => readCopy transform copy.bytes

/-- What `readFile` gives and the files it leaves. -/
def readFile (safe : Bool) (disk : Disk) : Option FileRead × Disk :=
  let order := readOrder safe disk
  match readSlot transform disk order.1, order.2 with
  | some read, other => (some read, disk.remove other)
  | none, none => (none, disk)
  | none, some other =>
    match readSlot transform disk other with
    | some read => (some read, disk.remove (some order.1))
    | none => (none, disk)

end Read

/-- `stream >> data`. -/
def readData (d : DataStream) : QByteArray × DataStream :=
  let length := d.readInt32
  if length.1 = -1 then (none, length.2)
  else
    let size := length.1.toUInt32.toNat
    if size ≤ length.2.rest.length then
      (some (length.2.rest.take size), { length.2 with rest := length.2.rest.drop size })
    else (none, ⟨[], false⟩)

/-- So many arrays one after the other. -/
def readArrays : ℕ → DataStream → List QByteArray × DataStream
  | 0, d => ([], d)
  | n + 1, d =>
    let data := readData d
    let rest := readArrays n data.2
    (data.1 :: rest.1, rest.2)

end Bettergram.Storage.Local
