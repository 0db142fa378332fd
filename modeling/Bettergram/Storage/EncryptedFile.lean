import Bettergram.Storage.Encryption

/-! # Encrypted files

`File` as the source computes it over a random-access device. The device keeps
its bytes when the file is closed. An environment supplies what the code does
not decide: whether the device opens and locks, the random bytes, and how many
bytes the device accepts in each write (`none` is no limit).
-/

namespace Bettergram.Storage
open Foundation

inductive OpenMode where
  | readOnly
  | writeOnly
  | readWrite
  deriving DecidableEq

namespace OpenMode

def readable : OpenMode → Bool
  | readOnly => true
  | writeOnly => false
  | readWrite => true

def writable : OpenMode → Bool
  | readOnly => false
  | writeOnly => true
  | readWrite => true

end OpenMode

/-- The random-access file under a `File`; the mode is `none` while it is closed. -/
structure QFile where
  content : List UInt8
  pos : ℕ
  mode : Option OpenMode

namespace QFile

/-- Opening for writing alone truncates. -/
def «open» (mode : OpenMode) (d : QFile) : QFile where
  content := if mode = .writeOnly then [] else d.content
  pos := 0
  mode := some mode

def close (d : QFile) : QFile := { d with pos := 0, mode := none }

def canRead (d : QFile) : Bool := d.mode.any OpenMode.readable
def canWrite (d : QFile) : Bool := d.mode.any OpenMode.writable

/-- `none` is the result `-1`. -/
def read (n : ℕ) (d : QFile) : Option (List UInt8 × QFile) :=
  if d.canRead then
    let bytes := (d.content.drop d.pos).take n
    some (bytes, { d with pos := d.pos + bytes.length })
  else none

/-- How many of `size` bytes a write with the given limit takes. -/
def taken (limit : Option ℕ) (size : ℕ) : ℕ := min (limit.getD size) size

@[simp] theorem taken_none (size : ℕ) : taken none size = size := by simp [taken]

/-- The number of bytes written, or `-1`; a gap before the position is filled with zeros. -/
def write (limit : Option ℕ) (bytes : List UInt8) (d : QFile) : ℤ × QFile :=
  if d.canWrite then
    let count := taken limit bytes.length
    let padded := d.content ++ List.replicate (d.pos - d.content.length) 0
    (count, { d with content := overwrite padded d.pos (bytes.take count), pos := d.pos + count })
  else (-1, d)

def seek (pos : ℕ) (d : QFile) : Bool × QFile :=
  if d.mode.isSome then (true, { d with pos }) else (false, d)

end QFile

/-- `FileLock::kSkipBytes` bytes stand in front of the header. -/
def kSkipBytes : ℕ := 4

def magic : List UInt8 := [0x54, 0x44, 0x45, 0x46]

/-- `sizeof(BasicHeader)`: the salt, sixteen bytes of fields and a SHA-256. -/
def headerSize : ℕ := 112

/-- The format with its reserved bits, `reserved2` and `applicationVersion` of a new header. -/
def headerFields : List UInt8 := leBytes 4 0 ++ leBytes 4 0 ++ leBytes 8 0

def saltOf (header : List UInt8) : Salt := Vector.ofFn fun i => header.getD i 0

structure File where
  data : QFile
  encryptionOffset : ℕ
  dataSize : ℕ
  state : Option CtrState

namespace File

inductive Mode where
  | read
  | readAppend
  | write
  deriving DecidableEq

inductive Result where
  | failed
  | lockFailed
  | wrongKey
  | success
  deriving DecidableEq

/-- What `open` cannot decide: whether the folder is there, the device opens and the lock is
taken, the random salt, and the limits of the three writes of a header. -/
structure OpenEnv where
  folder : Bool
  opened : Bool
  locked : Bool
  salt : Salt
  limits : Fin 3 → Option ℕ

variable (ssl : OpenSSL)

def isOpen (f : File) : Bool := f.data.mode.isSome

def size (f : File) : ℕ := f.dataSize

def offset (f : File) : ℕ :=
  let realOffset := kSaltSize + f.encryptionOffset
  if headerSize ≤ realOffset then realOffset - headerSize else 0

def close (f : File) : File where
  data := f.data.close
  encryptionOffset := 0
  dataSize := 0
  state := none

def writePlain (limit : Option ℕ) (bytes : List UInt8) (f : File) : ℤ × File :=
  let (count, data) := f.data.write limit bytes
  (count, { f with data })

def encrypt (bytes : List UInt8) (f : File) : Option (List UInt8 × File) := do
  let state ← f.state
  let bytes ← state.encrypt ssl bytes f.encryptionOffset
  some (bytes, { f with encryptionOffset := f.encryptionOffset + bytes.length })

def decrypt (bytes : List UInt8) (f : File) : Option (List UInt8 × File) := do
  let state ← f.state
  let bytes ← state.decrypt ssl bytes f.encryptionOffset
  some (bytes, { f with encryptionOffset := f.encryptionOffset + bytes.length })

def decryptBack (bytes : List UInt8) (f : File) : Option (List UInt8 × File) :=
  if f.encryptionOffset < bytes.length then none
  else do
    let f := { f with encryptionOffset := f.encryptionOffset - bytes.length }
    let (bytes, f) ← f.decrypt ssl bytes
    some (bytes, { f with encryptionOffset := f.encryptionOffset - bytes.length })

/-- The result, the caller's buffer afterwards, and the file. -/
def write (limit : Option ℕ) (bytes : List UInt8) (f : File) :
    Option (Bool × List UInt8 × File) :=
  if bytes.length % kBlockSize ≠ 0 then none
  else if !f.isOpen then some (false, bytes, f)
  else do
    let (buffer, f) ← f.encrypt ssl bytes
    let (count, f) := f.writePlain limit buffer
    if count = bytes.length then
      some (true, buffer, { f with dataSize := max f.dataSize f.offset })
    else
      let (buffer, f) ← f.decryptBack ssl buffer
      let f := if 0 < count then
        { f with data := (f.data.seek (f.data.pos - count.toNat)).2 } else f
      some (false, buffer, f)

/-- The bytes read. When the device cannot read, the count is `-1` and the code seeks one
byte ahead before it gives up. -/
def read (n : ℕ) (f : File) : Option (List UInt8 × File) :=
  if n % kBlockSize ≠ 0 then none
  else
    match f.data.read n with
    | none =>
      let (_, data) := f.data.seek (f.data.pos + 1)
      some ([], { f with data })
    | some (bytes, data) =>
      let back := bytes.length % kBlockSize
      let (sought, data) := if back = 0 then (true, data) else data.seek (data.pos - back)
      let count := bytes.length - back
      let f := { f with data }
      if !sought || count = 0 then some ([], f)
      else f.decrypt ssl (bytes.take count)

def seek (offset : ℤ) (f : File) : Bool × File :=
  if offset < 0 ∨ (f.dataSize : ℤ) < offset then (false, f)
  else
    let realOffset := headerSize + offset.toNat
    match f.data.seek (kSkipBytes + realOffset) with
    | (false, data) => (false, { f with data })
    | (true, data) => (true, { f with data, encryptionOffset := realOffset - kSaltSize })

/-- The bytes put into the caller's buffer; the `Assert` on the last block is a `none`. -/
def readWithPadding (size : ℕ) (f : File) : Option (List UInt8 × File) :=
  let part := size % kBlockSize
  let good := size - part
  let lastBlock (head : List UInt8) (f : File) : Option (List UInt8 × File) :=
    if part = 0 then some (head, f)
    else do
      let (padded, f) ← f.read ssl kBlockSize
      if padded.length = 0 then some (head, f)
      else if padded.length = kBlockSize then some (head ++ padded.take part, f)
      else none
  if good = 0 then lastBlock [] f
  else do
    let (head, f) ← f.read ssl good
    if head.length = good then lastBlock head f else some (head, f)

-- the two file operations of a padded write are numbered by `Fin 2`
instance neZeroTwo : NeZero 2 := ⟨Nat.succ_ne_zero 1⟩

/-- `padding` is the random tail of the last block. -/
def writeWithPadding (limits : Fin 2 → Option ℕ) (padding : Block) (bytes : List UInt8)
    (f : File) : Option (Bool × List UInt8 × File) :=
  let part := bytes.length % kBlockSize
  let good := bytes.length - part
  let lastBlock (head : List UInt8) (f : File) : Option (Bool × List UInt8 × File) :=
    if part = 0 then some (true, head, f)
    else do
      let tail := bytes.drop good
      let (written, _, f) ← f.write ssl (limits 1) (tail ++ padding.toList.drop part)
      if written then some (true, head ++ tail, f)
      else if good = 0 then some (false, head ++ tail, f)
      else do
        let (head, f) ← f.decryptBack ssl head
        let f := { f with data := (f.data.seek (f.data.pos - good)).2 }
        some (false, head ++ tail, f)
  if good = 0 then lastBlock [] f
  else do
    let (written, head, f) ← f.write ssl (limits 0) (bytes.take good)
    if written then lastBlock head f else some (false, head ++ bytes.drop good, f)

def writeHeader (key : EncryptionKey) (env : OpenEnv) (f : File) : Option (Bool × File) :=
  let (count, f) := f.writePlain (env.limits 0) magic
  if count = 0 then some (false, f)
  else do
    let f := { f with state := some (key.prepareCtrState ssl env.salt) }
    let checksum := ssl.sha256 (key.data.toList ++ (env.salt.toList ++ headerFields))
    let (count, f) := f.writePlain (env.limits 1) env.salt.toList
    if count ≠ kSaltSize then some (false, f)
    else do
      let (written, _, f) ← f.write ssl (env.limits 2) (headerFields ++ checksum.toList)
      if written then some (true, { f with dataSize := 0 }) else some (false, f)

def readHeader (key : EncryptionKey) (f : File) : Option (Result × File) :=
  match f.data.seek kSkipBytes with
  | (false, data) => some (.failed, { f with data })
  | (true, data) =>
    match data.read headerSize with
    | none => some (.failed, { f with data })
    | some (bytes, data) =>
      if bytes.length ≠ headerSize then some (.failed, { f with data })
      else do
        let f := { f with data, state := some (key.prepareCtrState ssl (saltOf bytes)) }
        let (rest, f) ← f.decrypt ssl (bytes.drop kSaltSize)
        let header := bytes.take kSaltSize ++ rest
        let checkSize := headerSize - 32
        let checksum := ssl.sha256 (key.data.toList ++ header.take checkSize)
        if header.drop checkSize ≠ checksum.toList then some (.wrongKey, f)
        else if header.getD kSaltSize 0 ≠ 0 then some (.failed, f)
        else
          let dataSize := f.data.content.length - headerSize - kSkipBytes
          some (.success, { f with dataSize := dataSize - dataSize % kBlockSize })

def attemptOpenForRead (key : EncryptionKey) (env : OpenEnv) (f : File) :
    Option (Result × File) :=
  if !env.opened then some (.failed, f)
  else readHeader ssl key { f with data := f.data.open .readOnly }

def attemptOpenForReadAppend (key : EncryptionKey) (env : OpenEnv) (f : File) :
    Option (Result × File) :=
  if !env.opened then some (.lockFailed, f)
  else
    let f := { f with data := f.data.open .readWrite }
    if !env.locked then some (.lockFailed, f)
    else if f.data.content.length = 0 then do
      let (written, f) ← writeHeader ssl key env f
      some (if written then .success else .failed, f)
    else readHeader ssl key f

def attemptOpenForWrite (key : EncryptionKey) (env : OpenEnv) (f : File) :
    Option (Result × File) :=
  if !env.opened then some (.lockFailed, f)
  else
    let f := { f with data := f.data.open .writeOnly }
    if !env.locked then some (.lockFailed, f)
    else do
      let (written, f) ← writeHeader ssl key env f
      some (if written then .success else .failed, f)

def attemptOpen : Mode → EncryptionKey → OpenEnv → File → Option (Result × File)
  | .read => attemptOpenForRead ssl
  | .readAppend => attemptOpenForReadAppend ssl
  | .write => attemptOpenForWrite ssl

def «open» (mode : Mode) (key : EncryptionKey) (env : OpenEnv) (f : File) :
    Option (Result × File) :=
  if mode ≠ .read ∧ !env.folder then some (.failed, f.close)
  else do
    let (result, f) ← attemptOpen ssl mode key env f.close
    some (result, if result = .success then f else f.close)

end File

end Bettergram.Storage
