import Mathlib.Algebra.Group.Int.Defs
import Mathlib.Algebra.Group.Nat.Defs
import Mathlib.Data.List.Basic
import Mathlib.Data.Int.Notation
import Mathlib.Data.List.Count
import Mathlib.Order.Nat

/-! # Loading a file with parallel requests

`DedicatedLoader` continues a file on the disk. It asks for parts, two at a time, and an answer
waits in the queue until all parts before it have come. Sizes and offsets of the source are
32-bit numbers.
-/

namespace Bettergram.Mtproto.DedicatedLoader

def kChunkSize : ℕ := 128 * 1024
def kMaxFileSize : ℕ := 256 * 1024 * 1024
def kRequestsCount : ℕ := 2

/-- What an `int` holds after an operation with the exact result `z`. -/
def toInt32 (z : ℤ) : ℤ := z.bmod (2 ^ 32)

inductive Event where
  | progress (already size : ℤ)
  | ready
  | failed
  deriving DecidableEq

/-- What the file system and the connection do; `write` is how many bytes of a block are taken. -/
structure Device where
  removes : Bool
  resizes : Bool
  opens : Bool
  write : List UInt8 → ℕ
  mtpValid : Bool

/-- A request in the queue, with the bytes of its answer when that has come. -/
structure Request where
  offset : ℤ
  bytes : List UInt8 := []
  deriving DecidableEq

/-- The loader with what is around it: the file on the disk, the requests that were sent and the
ones that are not answered, the delayed calls of `sendRequest`, and the events. -/
structure Loader where
  output : Option (List UInt8)
  isOpen : Bool := false
  alreadySize : ℤ := 0
  totalSize : ℤ := 0
  requests : List Request := []
  offset : ℤ := 0
  sent : List ℤ := []
  inFlight : List ℤ := []
  delayed : ℕ := 0
  events : List Event := []

/-- An answer to `upload.getFile`. -/
inductive UploadFile where
  | file (bytes : List UInt8)
  | fileCdnRedirect

namespace Loader

variable (device : Device) (size : ℤ)

def fire (event : Event) (s : Loader) : Loader := { s with events := s.events ++ [event] }

def remove (s : Loader) : Loader := if device.removes then { s with output := none } else s

/-- The path of a `DedicatedLoader` is never empty. -/
def validateOutput (s : Loader) : Option Loader :=
  match s.output with
  | none => some s
  | some bytes =>
    let fullSize := bytes.length
    if fullSize < kChunkSize ∨ kMaxFileSize < fullSize then
      if device.removes then some (s.remove device) else none
    else
      let goodSize :=
        if fullSize % kChunkSize ≠ 0 then fullSize - fullSize % kChunkSize else fullSize
      if device.resizes then
        some { s with output := some (bytes.take goodSize), alreadySize := goodSize }
      else none

def writeChunk (data : List UInt8) (totalSize : ℤ) (s : Loader) : Loader :=
  let written := if s.isOpen then device.write data else 0
  if 0 < data.length ∧ written ≠ data.length then
    { s with output := s.output.map (· ++ data.take written) }.fire .failed
  else
    let s :=
      { s with
        output := s.output.map (· ++ data)
        totalSize := if s.totalSize = 0 then totalSize else s.totalSize
        alreadySize := toInt32 (s.alreadySize + data.length) }
    if 0 < s.totalSize ∧ s.totalSize ≤ s.alreadySize then { s with isOpen := false }.fire .ready
    else s.fire (.progress s.alreadySize s.totalSize)

def sendRequest (s : Loader) : Loader :=
  if kRequestsCount ≤ s.requests.length ∨ size ≤ s.offset then s
  else
    let s :=
      { s with
        requests := s.requests ++ [{ offset := s.offset }]
        sent := s.sent ++ [s.offset]
        inFlight := s.inFlight ++ [s.offset]
        offset := toInt32 (s.offset + kChunkSize) }
    if s.requests.length < kRequestsCount then { s with delayed := s.delayed + 1 } else s

def startLoading (s : Loader) : Loader :=
  if device.mtpValid then
    ({ s with offset := s.alreadySize }.writeChunk device [] size).sendRequest size
  else s.fire .failed

def start (s : Loader) : Loader :=
  match s.validateOutput device with
  | none => (s.remove device).fire .failed
  | some s =>
    if device.opens then
      { s with output := some (s.output.getD []), isOpen := true }.startLoading device size
    else (s.remove device).fire .failed

/-- The first request with the offset gets the bytes. -/
def setBytes (offset : ℤ) (bytes : List UInt8) : List Request → Option (List Request)
  | [] => none
  | request :: requests =>
    if request.offset = offset then some ({ request with bytes := bytes } :: requests)
    else (setBytes offset bytes requests).map (request :: ·)

/-- The loop that writes the front of the queue. -/
def writeFront : List Request → Loader → Loader
  | [], s => { s with requests := [] }
  | request :: requests, s =>
    if request.bytes = [] then { s with requests := request :: requests }
    else writeFront requests (s.writeChunk device request.bytes size)

/-- There is no result when `Expects` or `Assert` fails. -/
def gotPart (offset : ℤ) (result : UploadFile) (s : Loader) : Option Loader :=
  if s.requests = [] then none
  else
    match result with
    | .fileCdnRedirect => some (s.fire .failed)
    | .file bytes =>
      if bytes = [] then some (s.fire .failed)
      else
        (setBytes offset bytes s.requests).map fun requests =>
          (s.writeFront device size requests).sendRequest size

end Loader

/-! ## Runs -/

/-- The bytes of the file at an offset. -/
def part (file : List UInt8) (offset : ℤ) : List UInt8 :=
  if offset < 0 then [] else (file.drop offset.toNat).take kChunkSize

/-- An answer comes for the request with the offset, or a delayed call is made. -/
inductive Action where
  | answer (offset : ℤ)
  | delayed

def step (device : Device) (file : List UInt8) (s : Loader) : Action → Option Loader
  | .answer offset =>
    if offset ∈ s.inFlight then
      { s with inFlight := s.inFlight.erase offset }.gotPart device file.length offset
        (.file (part file offset))
    else none
  | .delayed =>
    if 0 < s.delayed then some ({ s with delayed := s.delayed - 1 }.sendRequest file.length)
    else none

def run (device : Device) (file : List UInt8) (disk : Option (List UInt8))
    (actions : List Action) : Option Loader :=
  actions.foldlM (step device file) (Loader.start device file.length { output := disk })

end Bettergram.Mtproto.DedicatedLoader

/-! ## The queue of parts

The requests of the queue are for consecutive parts of the file, the first one for the part that
is written next. What is written is always a whole number of parts, or the file.
-/

namespace Bettergram.Mtproto.DedicatedLoader

variable {device : Device} {file : List UInt8} {n : ℕ} {s : Loader}

/-- Where a part begins. -/
def place (i : ℕ) : ℤ := ((i * kChunkSize : ℕ) : ℤ)

theorem place_inj {i j : ℕ} (h : place i = place j) : i = j := by
  unfold place kChunkSize at h
  omega

theorem place_succ (i : ℕ) : place (i + 1) = place i + kChunkSize := by
  unfold place
  rw [Nat.add_mul, Nat.one_mul]
  exact Int.natCast_add _ _

theorem toInt32_place (h : n * kChunkSize < 2 ^ 31) : toInt32 (place n) = place n := by
  unfold place
  exact Int.bmod_eq_of_le (by omega) (by omega)

theorem part_place (i : ℕ) :
    part file (place i) = (file.drop (i * kChunkSize)).take kChunkSize := by
  have h : ¬place i < 0 := Int.not_lt.mpr (Int.natCast_nonneg _)
  rw [part, if_neg h]
  rfl

theorem part_ne_nil {i : ℕ} (h : i * kChunkSize < file.length) : part file (place i) ≠ [] := by
  rw [part_place]
  intro hnil
  have hlength := congrArg List.length hnil
  rw [List.length_take, List.length_drop, List.length_nil] at hlength
  unfold kChunkSize at *
  omega

theorem take_append_part (i : ℕ) :
    file.take (i * kChunkSize) ++ part file (place i) = file.take ((i + 1) * kChunkSize) := by
  rw [part_place, Nat.add_mul, Nat.one_mul, List.take_add]

/-! ## The queue -/

/-- The requests are for the parts from number `n` on. -/
def Queue (file : List UInt8) : ℕ → List Request → Prop
  | _, [] => True
  | n, request :: requests =>
    request.offset = place n ∧ n * kChunkSize < file.length ∧
      (request.bytes = [] ∨ request.bytes = part file (place n)) ∧ Queue file (n + 1) requests

/-- The offsets of the requests that have no answer. -/
def unanswered (requests : List Request) : List ℤ :=
  (requests.filter fun request => request.bytes = []).map Request.offset

theorem unanswered_cons (request : Request) (requests : List Request) :
    unanswered (request :: requests) =
      if request.bytes = [] then request.offset :: unanswered requests
      else unanswered requests := by
  unfold unanswered
  by_cases h : request.bytes = [] <;> simp [h]

theorem Queue.append {requests : List Request} (h : Queue file n requests)
    (hfile : (n + requests.length) * kChunkSize < file.length) :
    Queue file n (requests ++ [{ offset := place (n + requests.length) }]) := by
  induction requests generalizing n with
  | nil => exact ⟨rfl, hfile, .inl rfl, trivial⟩
  | cons request requests ih =>
    obtain ⟨hoffset, hlt, hbytes, hrest⟩ := h
    have hlength : n + (request :: requests).length = n + 1 + requests.length := by
      rw [List.length_cons]
      omega
    rw [hlength] at hfile ⊢
    exact ⟨hoffset, hlt, hbytes, ih hrest hfile⟩

theorem unanswered_append (requests : List Request) (offset : ℤ) :
    unanswered (requests ++ [{ offset := offset }]) = unanswered requests ++ [offset] := by
  simp [unanswered]

theorem Queue.le_of_mem {requests : List Request} (h : Queue file n requests) {offset : ℤ}
    (hmem : offset ∈ unanswered requests) :
    ∃ i, n ≤ i ∧ i * kChunkSize < file.length ∧ offset = place i := by
  induction requests generalizing n with
  | nil => cases hmem
  | cons request requests ih =>
    rw [unanswered_cons] at hmem
    split at hmem
    · rcases List.mem_cons.mp hmem with rfl | hmem
      · exact ⟨n, Nat.le_refl n, h.2.1, h.1⟩
      · obtain ⟨i, hi, hoffset⟩ := ih h.2.2.2 hmem
        exact ⟨i, Nat.le_of_succ_le hi, hoffset⟩
    · obtain ⟨i, hi, hoffset⟩ := ih h.2.2.2 hmem
      exact ⟨i, Nat.le_of_succ_le hi, hoffset⟩

/-- An answer to an unanswered request is put into the queue. -/
theorem Queue.setBytes {requests : List Request} (h : Queue file n requests) {offset : ℤ}
    (hmem : offset ∈ unanswered requests) :
    ∃ requests', Loader.setBytes offset (part file offset) requests = some requests' ∧
      Queue file n requests' ∧ unanswered requests' = (unanswered requests).erase offset ∧
      requests'.length = requests.length := by
  induction requests generalizing n with
  | nil => cases hmem
  | cons request requests ih =>
    obtain ⟨hoffset, hlt, hbytes, hrest⟩ := h
    rw [Loader.setBytes]
    rw [unanswered_cons] at hmem
    by_cases hfirst : request.offset = offset
    · -- a later request is for another part, so this one has no answer yet
      subst hfirst
      have hnil : request.bytes = [] := by
        by_contra hnot
        rw [if_neg hnot] at hmem
        obtain ⟨i, hi, -, heq⟩ := hrest.le_of_mem hmem
        have := place_inj (hoffset.symm.trans heq)
        omega
      refine ⟨_, if_pos rfl, ?_, ?_, rfl⟩
      · exact ⟨hoffset, hlt, .inr (by rw [hoffset]), hrest⟩
      · rw [unanswered_cons, unanswered_cons, if_pos hnil, List.erase_cons_head, if_neg]
        rw [hoffset]
        exact part_ne_nil hlt
    · have hlater : offset ∈ unanswered requests := by
        split at hmem
        · exact (List.mem_cons.mp hmem).resolve_left (Ne.symm hfirst)
        · exact hmem
      obtain ⟨requests', hset, hqueue, herase, hlength⟩ := ih hrest hlater
      refine ⟨request :: requests', by rw [if_neg hfirst, hset]; rfl,
        ⟨hoffset, hlt, hbytes, hqueue⟩, ?_, by simp [hlength]⟩
      rw [unanswered_cons, unanswered_cons, herase]
      split
      · rw [List.erase_cons_tail (by simpa using hfirst)]
      · rfl

/-! ## Writing -/

/-- Parts up to number `n` are written. -/
structure Written (file : List UInt8) (n : ℕ) (s : Loader) : Prop where
  output : s.output = some (file.take (n * kChunkSize))
  already : s.alreadySize = (file.take (n * kChunkSize)).length
  total : s.totalSize = file.length
  isOpen : s.isOpen = decide (n * kChunkSize < file.length)
  ready : s.events.count .ready = if file.length ≤ n * kChunkSize then 1 else 0
  failed : Event.failed ∉ s.events

/-- The device takes all bytes of a block. -/
def Device.Writes (device : Device) : Prop := ∀ data, device.write data = data.length

/-- What writing does not change. -/
structure Frame (s t : Loader) : Prop where
  offset : t.offset = s.offset
  sent : t.sent = s.sent
  inFlight : t.inFlight = s.inFlight
  delayed : t.delayed = s.delayed

theorem Frame.trans {r t : Loader} (h : Frame r s) (h' : Frame s t) : Frame r t :=
  ⟨h'.offset.trans h.offset, h'.sent.trans h.sent, h'.inFlight.trans h.inFlight,
    h'.delayed.trans h.delayed⟩

theorem writeChunk_frame (device : Device) (s : Loader) (data : List UInt8) (size : ℤ) :
    Frame s (s.writeChunk device data size) ∧
      (s.writeChunk device data size).requests = s.requests := by
  unfold Loader.writeChunk
  dsimp only
  split_ifs <;> exact ⟨⟨rfl, rfl, rfl, rfl⟩, rfl⟩

theorem Written.writeChunk (h : Written file n s) (hdevice : device.Writes)
    (hsize : file.length < 2 ^ 31) (hn : n * kChunkSize < file.length) :
    Written file (n + 1) (s.writeChunk device (part file (place n)) file.length) := by
  have hopen : s.isOpen = true := by rw [h.isOpen, decide_eq_true hn]
  have hoverall : s.alreadySize + (part file (place n)).length =
      ((file.take ((n + 1) * kChunkSize)).length : ℤ) := by
    rw [h.already, ← take_append_part, List.length_append]
    rfl
  have hbound : (file.take ((n + 1) * kChunkSize)).length ≤ file.length := List.length_take_le' _ _
  have hint : toInt32 (file.take ((n + 1) * kChunkSize)).length =
      ((file.take ((n + 1) * kChunkSize)).length : ℤ) :=
    Int.bmod_eq_of_le (by omega) (by omega)
  have hwritten : ¬(0 < (part file (place n)).length ∧
      (if s.isOpen = true then device.write (part file (place n)) else 0) ≠
        (part file (place n)).length) := by
    rw [if_pos hopen, hdevice]
    exact fun hnot => hnot.2 rfl
  have htotal : (if s.totalSize = 0 then (file.length : ℤ) else s.totalSize) = file.length := by
    rw [h.total, ite_self]
  have hwhole : (0 < (file.length : ℤ) ∧
      (file.length : ℤ) ≤ (file.take ((n + 1) * kChunkSize)).length) ↔
        file.length ≤ (n + 1) * kChunkSize := by
    rw [List.length_take]
    omega
  have hready : s.events.count .ready = 0 := by rw [h.ready, if_neg (Nat.not_le.mpr hn)]
  unfold Loader.writeChunk
  dsimp only
  rw [if_neg hwritten]
  simp only [htotal, hoverall, hint, h.output, Option.map_some, take_append_part, hwhole]
  split
  · rename_i hlast
    exact ⟨rfl, rfl, rfl, (decide_eq_false (Nat.not_lt.mpr hlast)).symm,
      by simp [Loader.fire, List.count_append, hready, hlast], by simp [Loader.fire, h.failed]⟩
  · rename_i hlast
    exact ⟨rfl, rfl, rfl, by simp [Loader.fire, hopen, Nat.not_le.mp hlast],
      by simp [Loader.fire, List.count_append, hready, hlast], by simp [Loader.fire, h.failed]⟩

/-- What stands after the loop that writes the front of the queue. -/
structure Front (file : List UInt8) (n : ℕ) (requests : List Request) (s t : Loader) : Prop where
  frame : Frame s t
  written : ∃ k, k ≤ requests.length ∧ t.requests = requests.drop k ∧ Written file (n + k) t ∧
    Queue file (n + k) t.requests
  front : ∀ request ∈ t.requests.head?, request.bytes = []
  unanswered : unanswered t.requests = unanswered requests

theorem writeFront_front (hdevice : device.Writes) (hsize : file.length < 2 ^ 31)
    {requests : List Request} (h : Written file n s) (hqueue : Queue file n requests) :
    Front file n requests s (s.writeFront device file.length requests) := by
  induction requests generalizing n s with
  | nil =>
    exact ⟨⟨rfl, rfl, rfl, rfl⟩, ⟨0, Nat.le_refl 0, rfl, ⟨h.output, h.already, h.total, h.isOpen,
      h.ready, h.failed⟩, trivial⟩, by simp [Loader.writeFront], rfl⟩
  | cons request requests ih =>
    rw [Loader.writeFront]
    split
    · rename_i hnil
      exact ⟨⟨rfl, rfl, rfl, rfl⟩, ⟨0, Nat.zero_le _, rfl, ⟨h.output, h.already, h.total, h.isOpen,
        h.ready, h.failed⟩, hqueue⟩, by simp [hnil], rfl⟩
    · rename_i hbytes
      obtain ⟨-, hlt, hpart, hrest⟩ := hqueue
      have hwritten := h.writeChunk hdevice hsize hlt
      rw [← hpart.resolve_left hbytes] at hwritten
      have hfront := ih hwritten hrest
      obtain ⟨k, hk, hdrop, hwritten', hqueue'⟩ := hfront.written
      refine ⟨(writeChunk_frame _ _ _ _).1.trans hfront.frame, ⟨k + 1, by simpa using hk, hdrop, ?_, ?_⟩,
        hfront.front, ?_⟩
      · rwa [← Nat.add_assoc, Nat.add_right_comm]
      · rwa [← Nat.add_assoc, Nat.add_right_comm]
      · rw [hfront.unanswered, unanswered_cons, if_neg hbytes]

end Bettergram.Mtproto.DedicatedLoader
