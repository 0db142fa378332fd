import Bettergram.Foundation.LittleEndian
import Bettergram.Storage.Encryption

/-! # Packets on a stream

The protocols of a connection tell from the first bytes how long a packet is.
The length counts in words of four bytes or in bytes.
-/

namespace Bettergram.Mtproto
open Foundation

def kPacketSizeMax : ℕ := 0x01000000 * 4
def kUnknownSize : ℤ := -1
def kInvalidSize : ℤ := -2

/-- `Version1` reads packets as `Version0` does. -/
inductive Protocol where
  | version0
  | version1
  | versionD
deriving DecidableEq, Repr

namespace Protocol

def readPacketLength₀ (bytes : List UInt8) : ℤ :=
  if bytes = [] then kUnknownSize
  else
    let first := (bytes.getD 0 0).toInt8
    if first = 0x7F then
      if bytes.length < 4 then kUnknownSize
      else
        let ints := (bytes.getD 1 0).toUInt32 ||| (bytes.getD 2 0).toUInt32 <<< 8 |||
          (bytes.getD 3 0).toUInt32 <<< 16
        if 0x7F ≤ ints then (ints <<< 2).toInt32.toInt + 4 else kInvalidSize
    else if 0 < first ∧ first < 0x7F then
      let ints := first.toUInt8.toUInt32
      (ints <<< 2).toInt32.toInt + 1
    else kInvalidSize

def readPacketLengthD (bytes : List UInt8) : ℤ :=
  if bytes.length < 4 then kUnknownSize
  else
    let value := UInt32.ofNat (leNat (bytes.take 4)) + 4
    if 8 ≤ value ∧ value < UInt32.ofNat kPacketSizeMax then value.toInt32.toInt else kInvalidSize

def readPacketLength : Protocol → List UInt8 → ℤ
  | .version0 | .version1 => readPacketLength₀
  | .versionD => readPacketLengthD

/-- The bytes that the length takes. -/
def sizeLength : Protocol → List UInt8 → ℕ
  | .version0, bytes | .version1, bytes => if bytes.getD 0 0 = 0x7F then 4 else 1
  | .versionD, _ => 4

/-- `none` is a failed assertion. -/
def readPacket (p : Protocol) (bytes : List UInt8) : Option (List UInt8) :=
  let size := p.readPacketLength bytes
  if size ≠ kUnknownSize ∧ size ≠ kInvalidSize ∧ size ≤ bytes.length then
    let sizeLength := p.sizeLength bytes
    some ((bytes.drop sizeLength).take (size.toNat - sizeLength))
  else none

/-! ## What the peer sends -/

/-- A packet with its length, as `finalizePacket` makes it for the other direction. -/
def frame (p : Protocol) (payload : List UInt8) : List UInt8 :=
  match p with
  | .versionD => leBytes 4 payload.length ++ payload
  | _ =>
    let intsSize := payload.length / 4
    if intsSize < 0x7F then UInt8.ofNat intsSize :: payload
    else 0x7F :: leBytes 3 intsSize ++ payload

/-- The payloads that a frame can hold: whole words and three bytes for their number, or a size
below the limit for a packet. -/
def Framed (p : Protocol) (payload : List UInt8) : Prop :=
  match p with
  | .versionD => 4 ≤ payload.length ∧ payload.length + 4 < kPacketSizeMax
  | _ => 0 < payload.length ∧ 4 ∣ payload.length ∧ payload.length / 4 < 2 ^ 24

/-- A packet whose length can be told from the first `head` bytes, and not from fewer. -/
structure Delimited (p : Protocol) (packet : List UInt8) (head : ℕ) : Prop where
  pos : 0 < head
  le_four : head ≤ 4
  le_length : head ≤ packet.length
  unknown : ∀ {bytes more rest}, packet ++ more = bytes ++ rest → bytes.length < head →
    p.readPacketLength bytes = kUnknownSize
  known : ∀ {bytes more rest}, packet ++ more = bytes ++ rest → head ≤ bytes.length →
    p.readPacketLength bytes = packet.length

theorem short_first {n : ℕ} (hpos : 0 < n) (hlt : n < 0x7F) :
    let first := (UInt8.ofNat n).toInt8
    first ≠ 0x7F ∧ (0 < first ∧ first < 0x7F) ∧
      (first.toUInt8.toUInt32 <<< 2).toInt32.toInt = 4 * n := by
  have hall : ∀ n : Fin 0x7F, 0 < n.val →
      (UInt8.ofNat n).toInt8 ≠ 0x7F ∧ (0 < (UInt8.ofNat n).toInt8 ∧ (UInt8.ofNat n).toInt8 < 0x7F) ∧
        ((UInt8.ofNat n).toInt8.toUInt8.toUInt32 <<< 2).toInt32.toInt = 4 * (n.val : ℤ) := by
    decide
  exact hall ⟨n, hlt⟩ hpos

theorem toInt_of_lt {v : UInt32} (h : v.toNat < 2 ^ 31) : v.toInt32.toInt = v.toNat := by
  have hbits : v.toInt32.toInt = v.toBitVec.toInt := rfl
  have hcond := BitVec.toInt_eq_toNat_cond v.toBitVec
  rw [hbits, hcond, if_pos (by change 2 * v.toNat < 2 ^ 32; omega)]
  rfl

/-- Three bytes make up a number of words again. -/
theorem joined_ints {n : ℕ} (h : n < 2 ^ 24) :
    ((UInt8.ofNat n).toUInt32 ||| (UInt8.ofNat (n / 256)).toUInt32 <<< 8 |||
      (UInt8.ofNat (n / 256 / 256)).toUInt32 <<< 16).toNat = n := by
  have height : (8 : UInt32).toNat % 32 = 8 := rfl
  have hsixteen : (16 : UInt32).toNat % 32 = 16 := rfl
  simp only [UInt32.toNat_or, UInt32.toNat_shiftLeft, UInt8.toNat_toUInt32, UInt8.toNat_ofNat',
    height, hsixteen]
  have hmiddle : (n / 256 % 2 ^ 8) <<< 8 % 2 ^ 32 = (n / 256 % 2 ^ 8) <<< 8 := by
    rw [Nat.shiftLeft_eq, Nat.mod_eq_of_lt (by omega)]
  have hhigh : (n / 256 / 256 % 2 ^ 8) <<< 16 % 2 ^ 32 = (n / 256 / 256 % 2 ^ 8) <<< 16 := by
    rw [Nat.shiftLeft_eq, Nat.mod_eq_of_lt (by omega)]
  have hlow : n % 2 ^ 8 ||| (n / 256 % 2 ^ 8) <<< 8 = n % 2 ^ 16 := by
    rw [Nat.or_comm, ← Nat.shiftLeft_add_eq_or_of_lt (Nat.mod_lt _ (by decide)), Nat.shiftLeft_eq]
    omega
  rw [hmiddle, hhigh, hlow, Nat.or_comm,
    ← Nat.shiftLeft_add_eq_or_of_lt (Nat.mod_lt _ (by decide)), Nat.shiftLeft_eq]
  omega

theorem delimited₀ {p : Protocol} (hp : p ≠ .versionD) {payload : List UInt8}
    (h : p.Framed payload) :
    p.Delimited (p.frame payload) (if payload.length / 4 < 0x7F then 1 else 4) := by
  obtain ⟨hpos, hdvd, hlt⟩ : 0 < payload.length ∧ 4 ∣ payload.length ∧
      payload.length / 4 < 2 ^ 24 := by
    cases p <;> first | exact h | exact absurd rfl hp
  have hframe : p.frame payload = if payload.length / 4 < 0x7F
      then UInt8.ofNat (payload.length / 4) :: payload
      else 0x7F :: leBytes 3 (payload.length / 4) ++ payload := by
    cases p <;> first | rfl | exact absurd rfl hp
  have hread : p.readPacketLength = readPacketLength₀ := by
    cases p <;> first | rfl | exact absurd rfl hp
  rw [hframe]
  by_cases hshort : payload.length / 4 < 0x7F
  · rw [if_pos hshort, if_pos hshort]
    refine ⟨Nat.one_pos, by decide, by simp, fun {bytes _ _} _ hlen => ?_,
      fun {bytes _ _} hbytes hlen => ?_⟩
    · have hnil : bytes = [] := List.eq_nil_of_length_eq_zero (by omega)
      rw [hread, hnil]
      rfl
    · obtain ⟨b, bs, rfl⟩ := List.exists_cons_of_length_pos hlen
      obtain ⟨rfl, -⟩ := List.cons.inj hbytes
      obtain ⟨hne, hrange, hvalue⟩ := short_first (n := payload.length / 4) (by omega) hshort
      rw [hread, readPacketLength₀, if_neg (by simp)]
      simp only [List.getD_cons_zero]
      rw [if_neg hne, if_pos hrange, hvalue, List.length_cons]
      omega
  · rw [if_neg hshort, if_neg hshort]
    refine ⟨by decide, by decide, by simp, fun {bytes _ _} hbytes hlen => ?_,
      fun {bytes _ _} hbytes hlen => ?_⟩
    · rw [hread, readPacketLength₀]
      cases bytes with
      | nil => rfl
      | cons b bs =>
        obtain ⟨rfl, -⟩ := List.cons.inj hbytes
        rw [if_neg (by simp)]
        simp only [List.getD_cons_zero]
        rw [if_pos (by decide), if_pos hlen]
    · match bytes, hlen with
      | b :: b₁ :: b₂ :: b₃ :: bs, _ =>
        simp only [leBytes, List.cons_append, List.nil_append, List.cons.injEq] at hbytes
        obtain ⟨rfl, rfl, rfl, rfl, -⟩ := hbytes
        have hints := joined_ints hlt
        rw [hread, readPacketLength₀, if_neg (by simp)]
        simp only [List.getD_cons_zero, List.getD_cons_succ]
        rw [if_pos (by decide), if_neg (by simp)]
        generalize (UInt8.ofNat (payload.length / 4)).toUInt32 ||| _ ||| _ = ints at hints ⊢
        have hshift : (ints <<< 2).toNat = 4 * ints.toNat := by
          have htwo : (2 : UInt32).toNat % 32 = 2 := rfl
          rw [UInt32.toNat_shiftLeft, htwo, Nat.shiftLeft_eq]
          omega
        rw [if_pos (by rw [UInt32.le_iff_toNat_le, hints]; simpa using hshort),
          toInt_of_lt (by omega), hshift, hints]
        simp
        omega

theorem delimitedD {payload : List UInt8} (h : versionD.Framed payload) :
    versionD.Delimited (versionD.frame payload) 4 := by
  obtain ⟨hpos, hlt⟩ := h
  have hmax : kPacketSizeMax = 2 ^ 26 := rfl
  rw [hmax] at hlt
  refine ⟨by decide, by decide, by simp [frame], fun {bytes _ _} _ hlen => if_pos hlen,
    fun {bytes _ _} hbytes hlen => ?_⟩
  have htake : bytes.take 4 = leBytes 4 payload.length := by
    have h₁ := congrArg (List.take 4) hbytes
    rw [List.take_append_of_le_length hlen, frame, List.append_assoc,
      List.take_left' (length_leBytes 4 _)] at h₁
    exact h₁.symm
  have hvalue : (UInt32.ofNat (leNat (bytes.take 4)) + 4).toNat = payload.length + 4 := by
    rw [htake, leNat_leBytes_of_lt (by omega), UInt32.toNat_add, UInt32.toNat_ofNat']
    simp
    omega
  have hrange : 8 ≤ UInt32.ofNat (leNat (bytes.take 4)) + 4 ∧
      UInt32.ofNat (leNat (bytes.take 4)) + 4 < UInt32.ofNat kPacketSizeMax := by
    rw [UInt32.le_iff_toNat_le, UInt32.lt_iff_toNat_lt, hvalue, hmax]
    simp
    omega
  change readPacketLengthD bytes = _
  rw [readPacketLengthD, if_neg (not_lt.mpr hlen)]
  simp only [hrange, and_self, if_true]
  rw [toInt_of_lt (by omega), hvalue]
  simp [frame]
  omega

/-- Every frame tells its length from at most four bytes. -/
theorem exists_delimited {p : Protocol} {payload : List UInt8} (h : p.Framed payload) :
    ∃ head, p.Delimited (p.frame payload) head := by
  by_cases hp : p = .versionD
  · subst hp
    exact ⟨4, delimitedD h⟩
  · exact ⟨_, delimited₀ hp h⟩

theorem drop_sizeLength {p : Protocol} {payload : List UInt8} (h : p.Framed payload) :
    (p.frame payload).drop (p.sizeLength (p.frame payload)) = payload := by
  have hwords : ∀ n : ℕ, n < 0x7F → UInt8.ofNat n ≠ 0x7F := by
    intro n hn heq
    have htoNat := congrArg UInt8.toNat heq
    simp at htoNat
    omega
  cases p with
  | versionD => exact List.drop_left' (length_leBytes 4 _)
  | version0 | version1 =>
    by_cases hshort : payload.length / 4 < 0x7F
    · simp [frame, sizeLength, hshort, hwords _ hshort]
    · simp [frame, sizeLength, hshort, leBytes]

theorem readPacket_frame {p : Protocol} {payload : List UInt8} (h : p.Framed payload) :
    p.readPacket (p.frame payload) = some payload := by
  obtain ⟨head, hhead⟩ := exists_delimited h
  have hwhole : p.frame payload ++ [] = p.frame payload ++ [] := rfl
  have hsize := hhead.known hwhole hhead.le_length
  have hpos : (0 : ℤ) ≤ (p.frame payload).length := Int.natCast_nonneg _
  have hlength := congrArg List.length (drop_sizeLength h)
  rw [List.length_drop] at hlength
  have hunknown : (-1 : ℤ) = kUnknownSize := rfl
  have hinvalid : (-2 : ℤ) = kInvalidSize := rfl
  unfold readPacket
  dsimp only
  rw [hsize, if_pos ⟨by omega, by omega, le_rfl⟩, drop_sizeLength h, Int.toNat_natCast, hlength,
    List.take_length]

end Protocol

end Bettergram.Mtproto

/-! ## Reading from the socket

The bytes of the socket are decrypted in the buffer they are read to. A packet
that is not complete stays in the small buffer while it fits and is moved to a
large one otherwise.
-/

namespace Bettergram.Mtproto
open Foundation

open Storage (Block ctr128Inc)

def kSmallBufferSize : ℕ := 256 * 1024
def kMinPacketBuffer : ℕ := 256

/-- What `CRYPTO_ctr128_encrypt` keeps between two calls. -/
structure CTRState where
  ivec : Block
  ecount : Block
  num : Fin 16

namespace CTRState

/-- One byte of `CRYPTO_ctr128_encrypt`: a new block of the keystream when none is left. -/
def next (encrypt : Block → Block) (s : CTRState) : UInt8 × CTRState :=
  let s := if s.num = 0 then { s with ecount := encrypt s.ivec, ivec := ctr128Inc s.ivec } else s
  (s.ecount.get s.num, { s with num := s.num + 1 })

def aesCtrEncrypt (encrypt : Block → Block) : List UInt8 → CTRState → List UInt8 × CTRState
  | [], s => ([], s)
  | b :: bs, s =>
    let (k, s) := s.next encrypt
    let (bs, s) := aesCtrEncrypt encrypt bs s
    ((b ^^^ k) :: bs, s)

end CTRState

/-- `error` ends the call with `kErrorCodeOther`. -/
inductive SocketFailure where
  | assertion
  | error
deriving DecidableEq, Repr

/-- An `Assert`, an `Expects` or the check of a span. -/
def ensure (condition : Prop) [Decidable condition] : Except SocketFailure Unit :=
  if condition then .ok () else .error .assertion

def subspan (span : List UInt8) (offset count : ℕ) : Except SocketFailure (List UInt8) := do
  ensure (offset + count ≤ span.length)
  pure ((span.drop offset).take count)

/-- `packets` is what went to `socketPacket`. -/
structure TcpConnection where
  offsetBytes : ℕ := 0
  readBytes : ℕ := 0
  leftBytes : ℕ := 0
  smallBuffer : List UInt8 := []
  largeBuffer : List UInt8 := []
  usingLargeBuffer : Bool := false
  receiveState : CTRState
  packets : List (List UInt8) := []

namespace TcpConnection

def buffer (c : TcpConnection) : List UInt8 :=
  if c.usingLargeBuffer then c.largeBuffer else c.smallBuffer

def setBuffer (bytes : List UInt8) (c : TcpConnection) : TcpConnection :=
  if c.usingLargeBuffer then { c with largeBuffer := bytes } else { c with smallBuffer := bytes }

def socketPacket (bytes : List UInt8) (c : TcpConnection) : TcpConnection :=
  { c with packets := c.packets ++ [bytes] }

/-- Moves on behind a packet. -/
def skip (packetSize : ℕ) (c : TcpConnection) : TcpConnection :=
  { c with offsetBytes := c.offsetBytes + packetSize, readBytes := c.readBytes - packetSize }

/-- `bytes::copy` and `bytes::move` to the front of a buffer. -/
def copyTo (target source : List UInt8) : Except SocketFailure (List UInt8) := do
  ensure (source.length ≤ target.length)
  pure (overwrite target 0 source)

def ensureAvailableInBuffer (amount : ℕ) (c : TcpConnection) :
    Except SocketFailure TcpConnection := do
  ensure (c.offsetBytes ≤ c.buffer.length)
  let full := c.buffer.drop c.offsetBytes
  if amount ≤ full.length then pure c
  else
    let read ← subspan full 0 c.readBytes
    if amount ≤ c.smallBuffer.length then
      let smallBuffer ← copyTo c.smallBuffer read
      if c.usingLargeBuffer then
        pure { c with smallBuffer, usingLargeBuffer := false, largeBuffer := [], offsetBytes := 0 }
      else pure { c with smallBuffer, offsetBytes := 0 }
    else if amount ≤ c.largeBuffer.length then
      ensure (c.usingLargeBuffer = true)
      let largeBuffer ← copyTo c.largeBuffer read
      pure { c with largeBuffer, offsetBytes := 0 }
    else
      let largeBuffer ← copyTo (List.replicate amount 0) read
      pure { c with largeBuffer, usingLargeBuffer := true, offsetBytes := 0 }

variable (encrypt : Block → Block) (protocol : Protocol)

/-- The loop over the packets in the buffer; `start` and `size` are the span `available`, which
stays where it is when `ensureAvailableInBuffer` moves the bytes. -/
def readPackets : ℕ → ℕ → ℕ → TcpConnection → Except SocketFailure TcpConnection
  | 0, _, _, c => .ok c
  | fuel + 1, start, size, c =>
    if c.readBytes = 0 then .ok c
    else do
      let available ← subspan c.buffer start size
      let packetSize := protocol.readPacketLength available
      if packetSize = kUnknownSize then pure c
      else if packetSize ≤ 0 then .error .error
      else if packetSize ≤ size then
        let packetSize := packetSize.toNat
        let packet ← subspan available 0 packetSize
        let c ← ((c.socketPacket packet).skip packetSize).ensureAvailableInBuffer kMinPacketBuffer
        readPackets fuel (start + packetSize) (size - packetSize) c
      else
        let packetSize := packetSize.toNat
        ensureAvailableInBuffer packetSize { c with leftBytes := packetSize - size }

/-- What one `_socket.read` brings: at least one byte, when there are any, and at most what was
asked for. -/
def readCount (want readLimit : ℕ) (incoming : List UInt8) : ℕ :=
  min (want + 1) (min readLimit incoming.length)

/-- The bytes are decrypted in place. -/
def received (bytes : List UInt8) (c : TcpConnection) : TcpConnection :=
  let (read, receiveState) := CTRState.aesCtrEncrypt encrypt bytes c.receiveState
  { c.setBuffer (overwrite c.buffer (c.offsetBytes + c.readBytes) read) with
    receiveState, readBytes := c.readBytes + bytes.length }

/-- What follows a read. -/
def afterRead (count : ℕ) (c : TcpConnection) : Except SocketFailure TcpConnection := do
  if 0 < c.leftBytes then
    ensure (count ≤ c.leftBytes)
    let c := { c with leftBytes := c.leftBytes - count }
    if c.leftBytes = 0 then
      let packet ← subspan c.buffer c.offsetBytes c.readBytes
      pure { c.socketPacket packet with
        usingLargeBuffer := false, largeBuffer := [], offsetBytes := 0, readBytes := 0 }
    else pure c
  else
    ensure (c.offsetBytes + c.readBytes ≤ c.buffer.length)
    c.readPackets protocol c.readBytes c.offsetBytes c.readBytes

/-- One round of `socketRead`. -/
def readOnce (want : ℕ) (incoming : List UInt8) (c : TcpConnection) :
    Except SocketFailure (List UInt8 × TcpConnection) := do
  let readLimit := if 0 < c.leftBytes then c.leftBytes
    else kSmallBufferSize - c.offsetBytes - c.readBytes
  ensure (0 < readLimit)
  ensure (c.offsetBytes + c.readBytes ≤ c.buffer.length)
  ensure (readLimit ≤ c.buffer.length - (c.offsetBytes + c.readBytes))
  let count := readCount want readLimit incoming
  if count = 0 then pure (incoming, c)
  else
    let c ← (c.received encrypt (incoming.take count)).afterRead protocol count
    pure (incoming.drop count, c)

def resized (c : TcpConnection) : TcpConnection :=
  if c.smallBuffer = [] then { c with smallBuffer := List.replicate kSmallBufferSize 0 } else c

/-- A call reads as often as the socket has bytes; `wants` says how many each time. -/
def socketRead (wants : List ℕ) (incoming : List UInt8) (c : TcpConnection) :
    Except SocketFailure (List UInt8 × TcpConnection) := do
  ensure (0 < c.leftBytes ∨ c.usingLargeBuffer = false)
  wants.foldlM (fun (incoming, c) want => readOnce encrypt protocol want incoming c)
    (incoming, c.resized)

/-- The calls of a connection, until now. -/
def run (calls : List (List ℕ)) (incoming : List UInt8) (c : TcpConnection) :
    Except SocketFailure (List UInt8 × TcpConnection) :=
  calls.foldlM (fun (incoming, c) wants => socketRead encrypt protocol wants incoming c)
    (incoming, c)

end TcpConnection

end Bettergram.Mtproto
