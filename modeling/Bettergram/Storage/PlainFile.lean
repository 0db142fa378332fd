import Bettergram.Storage.EncryptedFile

/-! # A storage file as a plain byte array

What a `File` is for: an array with a cursor. Reads return the bytes stored
last at each offset in whole blocks, writes overwrite at the cursor, and the
padded calls round the last block up. A file that is closed shows neither its
cursor nor its length.
-/

namespace Bettergram.Storage
open Foundation

structure PlainFile where
  data : List UInt8
  cursor : ℕ
  mode : Option OpenMode

namespace PlainFile

def canRead (p : PlainFile) : Bool := p.mode.any OpenMode.readable
def canWrite (p : PlainFile) : Bool := p.mode.any OpenMode.writable

/-- The readable length: a trailing part of a block does not count. -/
def size (p : PlainFile) : ℕ :=
  if p.mode.isSome then p.data.length - p.data.length % kBlockSize else 0

def offset (p : PlainFile) : ℕ := p.cursor

/-- What the next `n` bytes hold, in whole blocks. -/
def peek (n : ℕ) (p : PlainFile) : List UInt8 :=
  let bytes := (p.data.drop p.cursor).take n
  bytes.take (bytes.length - bytes.length % kBlockSize)

def read (n : ℕ) (p : PlainFile) : List UInt8 × PlainFile :=
  (p.peek n, { p with cursor := p.cursor + (p.peek n).length })

/-- A write that is cut short fails: the cursor stays, but the accepted bytes are in the file. -/
def write (limit : Option ℕ) (bytes : List UInt8) (p : PlainFile) : Bool × PlainFile :=
  let count := QFile.taken limit bytes.length
  let data := overwrite p.data p.cursor (bytes.take count)
  if count = bytes.length then (true, { p with data, cursor := p.cursor + bytes.length })
  else (false, { p with data })

@[simp] theorem write_none (bytes : List UInt8) (p : PlainFile) :
    p.write none bytes = (true, { p with
      data := overwrite p.data p.cursor bytes, cursor := p.cursor + bytes.length }) := by
  simp [write]

def seek (offset : ℕ) (p : PlainFile) : PlainFile := { p with cursor := offset }

def close (p : PlainFile) : PlainFile := { p with cursor := 0, mode := none }

def reopen (mode : OpenMode) (p : PlainFile) : PlainFile :=
  { p with cursor := 0, mode := some mode }

/-- The bytes with the last block filled up from the random block. -/
def padded (padding : Block) (bytes : List UInt8) : List UInt8 :=
  if bytes.length % kBlockSize = 0 then bytes
  else bytes ++ padding.toList.drop (bytes.length % kBlockSize)

theorem length_padded (padding : Block) (bytes : List UInt8) :
    (padded padding bytes).length % kBlockSize = 0 := by
  unfold padded
  split
  · assumption
  · simp only [List.length_append, List.length_drop, Vector.length_toList, kBlockSize]
    omega

/-- A read of any length: the bytes of the padded blocks, cut off at `n`. -/
def readWithPadding (n : ℕ) (p : PlainFile) : List UInt8 × PlainFile :=
  let whole := n + (kBlockSize - n % kBlockSize) % kBlockSize
  ((p.peek whole).take n, (p.read whole).2)

/-- `File::write` refuses a closed file. -/
def writeOpen (limit : Option ℕ) (bytes : List UInt8) (p : PlainFile) : Bool × PlainFile :=
  if p.mode.isSome then p.write limit bytes else (false, p)

/-- A write succeeds in full, or leaves the cursor and perhaps some of the bytes. -/
theorem writeOpen_cases (limit : Option ℕ) (bytes : List UInt8) (p : PlainFile) :
    (p.mode.isSome = true ∧ p.writeOpen limit bytes = (true, { p with
      data := overwrite p.data p.cursor bytes, cursor := p.cursor + bytes.length })) ∨
    ∃ count, (p.mode.isSome = true ∨ count = 0) ∧ p.writeOpen limit bytes = (false, { p with
      data := overwrite p.data p.cursor (bytes.take count) }) := by
  unfold writeOpen write
  split
  · next hopen =>
    dsimp only
    split
    · next hcount =>
      rw [hcount, List.take_length]
      exact .inl ⟨hopen, rfl⟩
    · exact .inr ⟨_, .inl hopen, rfl⟩
  · exact .inr ⟨0, .inr rfl, by simp⟩

theorem writeOpen_none {p : PlainFile} (hopen : p.mode.isSome = true) (bytes : List UInt8) :
    p.writeOpen none bytes = (true, { p with
      data := overwrite p.data p.cursor bytes, cursor := p.cursor + bytes.length }) := by
  rw [writeOpen, if_pos hopen, write_none]

/-- The whole blocks and then the filled last block; after a failure the cursor stays. -/
def writeWithPadding (limits : Fin 2 → Option ℕ) (padding : Block) (bytes : List UInt8)
    (p : PlainFile) : Bool × PlainFile :=
  let part := bytes.length % kBlockSize
  let good := bytes.length - part
  let (written, head) := if good = 0 then (true, p) else p.writeOpen (limits 0) (bytes.take good)
  if !written then (false, head)
  else if part = 0 then (true, head)
  else
    let (written, tail) :=
      head.writeOpen (limits 1) (bytes.drop good ++ padding.toList.drop part)
    (written, if written then tail else tail.seek p.cursor)

end PlainFile

/-- A call on an open or closed file; `reopen` uses `ReadAppend` or `Read`. -/
inductive FileOp where
  | write (bytes : List UInt8)
  | writeWithPadding (padding : Block) (bytes : List UInt8)
  | seek (offset : ℤ)
  | read (n : ℕ)
  | readWithPadding (n : ℕ)
  | close
  | reopen (append : Bool)

namespace PlainFile

/-- At a block boundary of a file of whole blocks nothing is rounded off. -/
theorem peek_eq {p : PlainFile} {n : ℕ} (hn : n % kBlockSize = 0)
    (hwhole : p.data.length % kBlockSize = 0) (hcursor : p.cursor % kBlockSize = 0) :
    p.peek n = (p.data.drop p.cursor).take n := by
  have hback : ((p.data.drop p.cursor).take n).length % kBlockSize = 0 := by
    simp only [List.length_take, List.length_drop, kBlockSize] at *
    omega
  rw [peek, hback, Nat.sub_zero, List.take_length]

/-- When less than a block is left nothing is read. -/
theorem peek_eq_nil {p : PlainFile} (h : p.peek kBlockSize = []) (n : ℕ) : p.peek n = [] := by
  have hleft : p.data.length - p.cursor < kBlockSize := by
    have hlen := congrArg List.length h
    simp only [peek, List.length_take, List.length_drop, List.length_nil, kBlockSize] at *
    omega
  apply List.eq_nil_of_length_eq_zero
  simp only [peek, List.length_take, List.length_drop, kBlockSize] at *
  omega

/-- A successful call and the bytes it returns. The array cannot be read or written from inside
a block; a read there succeeds only when less than a block is left. -/
def perform : FileOp → PlainFile → Option (List UInt8 × PlainFile)
  | .write bytes, p =>
    if bytes.length % kBlockSize = 0 ∧ p.canWrite ∧ p.cursor % kBlockSize = 0 then
      some ([], (p.write none bytes).2)
    else none
  | .writeWithPadding padding bytes, p =>
    if bytes = [] then some ([], p)
    else if p.canWrite ∧ p.cursor % kBlockSize = 0 then
      some ([], (p.write none (padded padding bytes)).2)
    else none
  | .seek offset, p =>
    if p.mode.isSome ∧ 0 ≤ offset ∧ offset ≤ p.size then some ([], p.seek offset.toNat) else none
  | .read n, p =>
    if n % kBlockSize = 0 ∧ p.canRead ∧ (p.cursor % kBlockSize = 0 ∨ p.peek n = []) then
      some (p.read n)
    else none
  | .readWithPadding n, p =>
    if n = 0 then some ([], p)
    else if p.canRead ∧ (p.cursor % kBlockSize = 0 ∨ p.peek kBlockSize = []) then
      some (p.readWithPadding n)
    else none
  | .close, p => some ([], p.close)
  | .reopen append, p => some ([], p.reopen (if append then .readWrite else .readOnly))

/-- What each call of a successful run shows: the bytes read, the offset and the size. -/
def run : List FileOp → PlainFile → Option (List (List UInt8 × ℕ × ℕ))
  | [], _ => some []
  | op :: ops, p => do
    let (bytes, p) ← p.perform op
    let rest ← p.run ops
    some ((bytes, p.offset, p.size) :: rest)

/-- A file just created for writing. -/
def created : PlainFile where
  data := []
  cursor := 0
  mode := some .writeOnly

end PlainFile

namespace File

variable (ssl : OpenSSL) (key : EncryptionKey)

/-- The device opens, locks and accepts everything. -/
def OpenEnv.granted (salt : Salt) : OpenEnv where
  folder := true
  opened := true
  locked := true
  salt := salt
  limits := fun _ => none

/-- A call that succeeds, on a device that accepts everything; any other outcome is `none`. -/
def perform (salt : Salt) : FileOp → File → Option (List UInt8 × File)
  | .write bytes, f => do
    let (written, _, f) ← f.write ssl none bytes
    if written then some ([], f) else none
  | .writeWithPadding padding bytes, f => do
    let (written, _, f) ← f.writeWithPadding ssl (fun _ => none) padding bytes
    if written then some ([], f) else none
  | .seek offset, f =>
    match f.seek offset with
    | (true, f) => some ([], f)
    | (false, _) => none
  | .read n, f => if f.data.canRead then f.read ssl n else none
  | .readWithPadding n, f => if n = 0 ∨ f.data.canRead then f.readWithPadding ssl n else none
  | .close, f => some ([], f.close)
  | .reopen append, f => do
    let mode := if append then Mode.readAppend else Mode.read
    let (result, f) ← f.open ssl mode key (OpenEnv.granted salt)
    if result = .success then some ([], f) else none

def run (salt : Salt) : List FileOp → File → Option (List (List UInt8 × ℕ × ℕ))
  | [], _ => some []
  | op :: ops, f => do
    let (bytes, f) ← f.perform ssl key salt op
    let rest ← f.run salt ops
    some ((bytes, f.offset, f.size) :: rest)

end File

namespace PlainFile

theorem writeOpen_written {limit : Option ℕ} {bytes : List UInt8} {p q : PlainFile}
    (h : p.writeOpen limit bytes = (true, q)) :
    q = { p with data := overwrite p.data p.cursor bytes, cursor := p.cursor + bytes.length } := by
  rcases writeOpen_cases limit bytes p with ⟨-, hfull⟩ | ⟨count, -, hshort⟩
  · rw [hfull] at h
    exact (congrArg Prod.snd h).symm
  · rw [hshort] at h
    cases congrArg Prod.fst h

/-- Writing a new file in full leaves the padded bytes. -/
theorem writeWithPadding_created {limits : Fin 2 → Option ℕ} {padding : Block} {bytes : List UInt8}
    (h : (created.writeWithPadding limits padding bytes).1 = true) :
    (created.writeWithPadding limits padding bytes).2.data = padded padding bytes := by
  set part := bytes.length % kBlockSize with hpart
  set good := bytes.length - part with hgood
  have hsplit : part ≠ 0 → padded padding bytes =
      bytes.take good ++ (bytes.drop good ++ padding.toList.drop part) := by
    intro hne
    rw [padded, if_neg hne, ← List.append_assoc, List.take_append_drop]
  have hfirst : ∀ written head, (if good = 0 then (true, created)
      else created.writeOpen (limits 0) (bytes.take good)) = (written, head) → written = true →
      head = { created with data := bytes.take good, cursor := (bytes.take good).length } := by
    intro written head heq hwritten
    split at heq
    · next hnone =>
      cases heq
      simp [hnone, created]
    · subst hwritten
      rw [writeOpen_written heq]
      simp [created, overwrite]
  unfold writeWithPadding at h ⊢
  simp only [← hpart, ← hgood] at h ⊢
  generalize hopen : (if good = 0 then (true, created)
    else created.writeOpen (limits 0) (bytes.take good)) = opened at h ⊢
  obtain ⟨written, head⟩ := opened
  cases written with
  | false => simp at h
  | true =>
    have hhead := hfirst true head hopen rfl
    simp only [Bool.not_true, Bool.false_eq_true, if_false] at h ⊢
    by_cases hzero : part = 0
    · have hall : bytes.take good = bytes := List.take_of_length_le (by omega)
      rw [if_pos hzero, hhead, hall, padded, if_pos (hpart ▸ hzero)]
    · rw [if_neg hzero] at h ⊢
      generalize hnext : head.writeOpen (limits 1) (bytes.drop good ++ padding.toList.drop part) =
        next at h ⊢
      obtain ⟨written, tail⟩ := next
      simp only at h
      subst h
      rw [hsplit hzero, if_pos rfl, writeOpen_written hnext, hhead, overwrite_length]

/-- The bytes are read back from the padded ones. -/
theorem readWithPadding_padded (padding : Block) (bytes : List UInt8) (mode : Option OpenMode) :
    (({ data := padded padding bytes, cursor := 0, mode } : PlainFile).readWithPadding
      bytes.length).1 = bytes := by
  have hwhole : (bytes.length + (kBlockSize - bytes.length % kBlockSize) % kBlockSize) %
      kBlockSize = 0 := by
    simp only [kBlockSize]
    omega
  have hfront : (padded padding bytes).take bytes.length = bytes := by
    unfold padded
    split
    · exact List.take_length
    · exact List.take_left
  unfold readWithPadding
  dsimp only
  rw [peek_eq hwhole (length_padded padding bytes) rfl, List.drop_zero, List.take_take,
    Nat.min_eq_left (Nat.le_add_right _ _), hfront]

theorem writeWithPadding_granted {limits : Fin 2 → Option ℕ}
    (hlimits : ∀ i, limits i = none) (padding : Block) (bytes : List UInt8) :
    (created.writeWithPadding limits padding bytes).1 = true := by
  have hwrite : ∀ (p : PlainFile) (bytes : List UInt8), p.mode.isSome = true →
      (p.writeOpen none bytes).1 = true ∧ (p.writeOpen none bytes).2.mode.isSome = true := by
    intro p bytes hopen
    rw [writeOpen_none hopen]
    exact ⟨rfl, hopen⟩
  have hopen : created.mode.isSome = true := rfl
  unfold writeWithPadding
  simp only [hlimits]
  generalize bytes.length - bytes.length % kBlockSize = good
  obtain ⟨hfirst, hstill⟩ := hwrite created (bytes.take good) hopen
  by_cases hnone : good = 0
  · simp only [hnone, if_true, Bool.not_true, Bool.false_eq_true, if_false]
    split
    · rfl
    · exact (hwrite _ _ hopen).1
  · simp only [hnone, if_false, hfirst, Bool.not_true, Bool.false_eq_true]
    split
    · rfl
    · exact (hwrite _ _ hstill).1

end PlainFile

end Bettergram.Storage
