import Bettergram.Foundation.Overwrite
import Bettergram.Foundation.LittleEndian

/-! # The core types

How the values of the core types are written to a buffer of primes and read
back. A type that is read from a buffer takes the id of its constructor as an
argument; a boxed one reads the id itself.
-/

namespace Bettergram.Mtproto
open Foundation

/-- `pastEnd` is an access behind the end of the buffer, which nothing would notice. -/
inductive ReadError where
  | insufficient
  | unexpected (typeId : UInt32) (type : String)
  | pastEnd
deriving DecidableEq, Repr

def mtpc_int : UInt32 := 0xa8509bda
def mtpc_long : UInt32 := 0x22076cba
def mtpc_int128 : UInt32 := 0x4bb5362b
def mtpc_int256 : UInt32 := 0x929c32f
def mtpc_double : UInt32 := 0x2210c154
def mtpc_string : UInt32 := 0xb5286e24
def mtpc_vector : UInt32 := 0x1cb5c415
def mtpc_flags : UInt32 := mtpc_int

/-- What `from[i]` gives in the buffer `data`. -/
def fetch {α : Type} (data : List α) (i : ℕ) : Except ReadError α :=
  match data[i]? with
  | some x => .ok x
  | none => .error .pastEnd

def fetchMany {α : Type} (data : List α) (i n : ℕ) : Except ReadError (List α) :=
  if i + n ≤ data.length then .ok ((data.drop i).take n) else .error .pastEnd

/-- The code of a type. `read` gets the buffer up to `end`, the place of `from` and the
constructor, and tells where `from` ends up; `cons` is its default argument. -/
structure Codec (α : Type) where
  type : UInt32
  cons : UInt32
  innerLength : α → UInt32
  write : α → List Int32 → List Int32
  read : List Int32 → ℕ → UInt32 → Except ReadError (α × ℕ)

/-! ## Numbers -/

namespace MTPint

def read (data : List Int32) (start : ℕ) (cons : UInt32) : Except ReadError (Int32 × ℕ) :=
  if start + 1 > data.length then .error .insufficient
  else if cons ≠ mtpc_int then .error (.unexpected cons "MTPint")
  else (fetch data start).map fun v => (v, start + 1)

def codec : Codec Int32 where
  type := mtpc_int
  cons := mtpc_int
  innerLength _ := 4
  write v buffer := buffer ++ [v]
  read := read

end MTPint

namespace MTPflags

/-- Flags are kept by their 32 bits. -/
def read (data : List Int32) (start : ℕ) (cons : UInt32) : Except ReadError (UInt32 × ℕ) :=
  if start + 1 > data.length then .error .insufficient
  else if cons ≠ mtpc_flags then .error (.unexpected cons "MTPflags")
  else (fetch data start).map fun v => (v.toUInt32, start + 1)

def codec : Codec UInt32 where
  type := mtpc_flags
  cons := mtpc_flags
  innerLength _ := 4
  write v buffer := buffer ++ [v.toInt32]
  read := read

end MTPflags

/-- Two primes, the low one first. -/
def writeLong (v : UInt64) (buffer : List Int32) : List Int32 :=
  buffer ++ [(v &&& 0xFFFFFFFF).toUInt32.toInt32] ++ [(v >>> 32).toUInt32.toInt32]

def fetchLong (data : List Int32) (start : ℕ) : Except ReadError UInt64 := do
  let low ← fetch data start
  let high ← fetch data (start + 1)
  pure (low.toUInt32.toUInt64 ||| high.toUInt32.toUInt64 <<< 32)

/-- `MTPlong` and `MTPdouble` differ in their constructor only; a double is kept by its bits. -/
def readLong (type : UInt32) (name : String) (data : List Int32) (start : ℕ) (cons : UInt32) :
    Except ReadError (UInt64 × ℕ) :=
  if start + 2 > data.length then .error .insufficient
  else if cons ≠ type then .error (.unexpected cons name)
  else (fetchLong data start).map fun v => (v, start + 2)

def longCodec (type : UInt32) (name : String) : Codec UInt64 where
  type := type
  cons := type
  innerLength _ := 8
  write := writeLong
  read := readLong type name

def MTPlong.codec : Codec UInt64 := longCodec mtpc_long "MTPlong"
def MTPdouble.codec : Codec UInt64 := longCodec mtpc_double "MTPdouble"

structure MTPint128 where
  l : UInt64
  h : UInt64
deriving DecidableEq, Repr

namespace MTPint128

def read (data : List Int32) (start : ℕ) (cons : UInt32) : Except ReadError (MTPint128 × ℕ) :=
  if start + 4 > data.length then .error .insufficient
  else if cons ≠ mtpc_int128 then .error (.unexpected cons "MTPint128")
  else do
    let l ← fetchLong data start
    let h ← fetchLong data (start + 2)
    pure (⟨l, h⟩, start + 4)

def codec : Codec MTPint128 where
  type := mtpc_int128
  cons := mtpc_int128
  innerLength _ := 8 + 8
  write v buffer := writeLong v.h (writeLong v.l buffer)
  read := read

end MTPint128

structure MTPint256 where
  l : MTPint128
  h : MTPint128
deriving DecidableEq, Repr

namespace MTPint256

def read (data : List Int32) (start : ℕ) (cons : UInt32) : Except ReadError (MTPint256 × ℕ) :=
  if cons ≠ mtpc_int256 then .error (.unexpected cons "MTPint256")
  else do
    let (l, start) ← MTPint128.read data start mtpc_int128
    let (h, start) ← MTPint128.read data start mtpc_int128
    pure (⟨l, h⟩, start)

def codec : Codec MTPint256 where
  type := mtpc_int256
  cons := mtpc_int256
  innerLength v := MTPint128.codec.innerLength v.l + MTPint128.codec.innerLength v.h
  write v buffer := MTPint128.codec.write v.h (MTPint128.codec.write v.l buffer)
  read := read

end MTPint256

/-! ## Strings -/

namespace MTPstring

/-- The bytes before the string itself; of the length three bytes are kept. -/
def head (l : UInt32) : List UInt8 :=
  if l < 254 then [l.toUInt8]
  else [254, (l &&& 0xFF).toUInt8, ((l >>> 8) &&& 0xFF).toUInt8, ((l >>> 16) &&& 0xFF).toUInt8]

def innerLength (v : List UInt8) : UInt32 :=
  let l := UInt32.ofNat v.length
  let l := if l < 254 then l + 1 else l + 4
  let d := l &&& 0x03
  if d ≠ 0 then l + (4 - d) else l

/-- The buffer grows by zeros, over which the bytes are copied. -/
def write (v : List UInt8) (buffer : List Int32) : List Int32 :=
  let l := UInt32.ofNat v.length
  let s := l + if l < 254 then 1 else 4
  let s := if s &&& 0x03 ≠ 0 then s + 4 else s
  let s := s >>> 2
  buffer ++ wordsOfBytes (overwrite (List.replicate (4 * s.toNat) 0) 0 (head l ++ v))

/-- By how many primes `from` moves. -/
def primes (l : UInt32) : ℕ := ((l >>> 2) + if l &&& 0x03 ≠ 0 then 1 else 0).toNat

/-- The length, the number of bytes it takes and how far `from` moves. -/
def readHead (buf : List UInt8) : Except ReadError (UInt32 × ℕ × ℕ) := do
  let first ← fetch buf 0
  if first = 254 then
    let b₁ ← fetch buf 1
    let b₂ ← fetch buf 2
    let b₃ ← fetch buf 3
    let l := b₁.toUInt32 + (b₂.toUInt32 <<< 8) + (b₃.toUInt32 <<< 16)
    pure (l, 4, primes (l + 4))
  else
    let l := first.toUInt32
    pure (l, 1, primes (l + 1))

def read (data : List Int32) (start : ℕ) (cons : UInt32) : Except ReadError (List UInt8 × ℕ) :=
  if start + 1 > data.length then .error .insufficient
  else if cons ≠ mtpc_string then .error (.unexpected cons "MTPstring")
  else do
    let buf := (bytesOfWords data).drop (4 * start)
    let (l, skip, moved) ← readHead buf
    let stop := start + moved
    if stop > data.length then .error .insufficient
    else (fetchMany buf skip l.toNat).map fun v => (v, stop)

def codec : Codec (List UInt8) where
  type := mtpc_string
  cons := mtpc_string
  innerLength := innerLength
  write := write
  read := read

end MTPstring

/-! ## Vectors and boxes -/

namespace MTPvector

variable {α : Type} (item : Codec α)

def readItems (data : List Int32) : ℕ → ℕ → Except ReadError (List α × ℕ)
  | 0, start => .ok ([], start)
  | count + 1, start => do
    let (x, start) ← item.read data start item.cons
    let (xs, start) ← readItems data count start
    pure (x :: xs, start)

def read (data : List Int32) (start : ℕ) (cons : UInt32) : Except ReadError (List α × ℕ) :=
  if start + 1 > data.length then .error .insufficient
  else if cons ≠ mtpc_vector then .error (.unexpected cons "MTPvector")
  else do
    let count ← fetch data start
    readItems item data count.toUInt32.toNat (start + 1)

def codec : Codec (List α) where
  type := mtpc_vector
  cons := mtpc_vector
  innerLength v := v.foldl (fun result x => result + item.innerLength x) 4
  write v buffer := v.foldl (fun buffer x => item.write x buffer) (buffer ++ [Int32.ofNat v.length])
  read := read item

end MTPvector

namespace MTPBoxed

variable {α : Type} (bare : Codec α)

/-- The constructor that is passed does not matter. -/
def read (data : List Int32) (start : ℕ) (_cons : UInt32) : Except ReadError (α × ℕ) :=
  if start + 1 > data.length then .error .insufficient
  else do
    let cons ← fetch data start
    bare.read data (start + 1) cons.toUInt32

def codec : Codec α where
  type := bare.type
  cons := 0
  innerLength v := 4 + bare.innerLength v
  write v buffer := bare.write v (buffer ++ [bare.type.toInt32])
  read := read bare

end MTPBoxed

/-! ## All of them -/

/-- The bare core types. A box is put around a bare type only. -/
inductive CoreType where
  | int
  | long
  | int128
  | int256
  | double
  | string
  | flags
  | vector (boxed : Bool) (item : CoreType)

namespace CoreType

def Value : CoreType → Type
  | .int => Int32
  | .long => UInt64
  | .int128 => MTPint128
  | .int256 => MTPint256
  | .double => UInt64
  | .string => List UInt8
  | .flags => UInt32
  | .vector _ item => List item.Value

def bare : (t : CoreType) → Codec t.Value
  | .int => MTPint.codec
  | .long => MTPlong.codec
  | .int128 => MTPint128.codec
  | .int256 => MTPint256.codec
  | .double => MTPdouble.codec
  | .string => MTPstring.codec
  | .flags => MTPflags.codec
  | .vector true item => MTPvector.codec (MTPBoxed.codec item.bare)
  | .vector false item => MTPvector.codec item.bare

def codec (boxed : Bool) (t : CoreType) : Codec t.Value :=
  if boxed then MTPBoxed.codec t.bare else t.bare

/-- Strings are shorter than their length field allows, vectors no longer than `QVector`. -/
def Fits : (t : CoreType) → t.Value → Prop
  | .string, (v : List UInt8) => v.length < 2 ^ 24
  | .vector _ item, (v : List item.Value) => v.length < 2 ^ 31 ∧ ∀ x ∈ v, item.Fits x
  | _, _ => True

end CoreType

end Bettergram.Mtproto
