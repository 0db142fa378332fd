import Bettergram.Mtproto.TcpProtocol

/-! # Packets however the stream is cut

Whatever the socket gives at a time, the buffer holds the front of what is
still to be handed over: less than the length of the next packet, or a known
part of it with room for the rest.
-/

namespace Bettergram.Mtproto
open Foundation

open Storage (Block)

/-! ## The stream cipher -/

namespace CTRState

variable (encrypt : Block → Block)

theorem aesCtrEncrypt_append (bs cs : List UInt8) (s : CTRState) :
    aesCtrEncrypt encrypt (bs ++ cs) s =
      ((aesCtrEncrypt encrypt bs s).1 ++ (aesCtrEncrypt encrypt cs (aesCtrEncrypt encrypt bs s).2).1,
        (aesCtrEncrypt encrypt cs (aesCtrEncrypt encrypt bs s).2).2) := by
  induction bs generalizing s with
  | nil => rfl
  | cons b bs ih =>
    rw [List.cons_append, aesCtrEncrypt, aesCtrEncrypt]
    simp only [ih, List.cons_append]

@[simp] theorem length_aesCtrEncrypt (bs : List UInt8) (s : CTRState) :
    (aesCtrEncrypt encrypt bs s).1.length = bs.length := by
  induction bs generalizing s with
  | nil => rfl
  | cons b bs ih =>
    rw [aesCtrEncrypt]
    simp only [List.length_cons, ih]

/-- Decrypting is encrypting again from the same state. -/
theorem aesCtrEncrypt_twice (bs : List UInt8) (s : CTRState) :
    aesCtrEncrypt encrypt (aesCtrEncrypt encrypt bs s).1 s =
      (bs, (aesCtrEncrypt encrypt bs s).2) := by
  induction bs generalizing s with
  | nil => rfl
  | cons b bs ih =>
    rw [aesCtrEncrypt]
    simp only [aesCtrEncrypt, ih, UInt8.xor_assoc, UInt8.xor_self, UInt8.xor_zero]

/-- A piece of the encrypted stream can be decrypted before the rest is there. -/
theorem aesCtrEncrypt_take (bs : List UInt8) (s : CTRState) {n : ℕ} (hn : n ≤ bs.length) :
    ∃ s', aesCtrEncrypt encrypt ((aesCtrEncrypt encrypt bs s).1.take n) s = (bs.take n, s') ∧
      (aesCtrEncrypt encrypt bs s).1.drop n = (aesCtrEncrypt encrypt (bs.drop n) s').1 := by
  have hsplit := aesCtrEncrypt_append encrypt (bs.take n) (bs.drop n) s
  rw [List.take_append_drop] at hsplit
  have hlength : (aesCtrEncrypt encrypt (bs.take n) s).1.length = n := by simp [hn]
  refine ⟨(aesCtrEncrypt encrypt (bs.take n) s).2, ?_, ?_⟩
  · rw [hsplit, List.take_left' hlength, aesCtrEncrypt_twice]
  · rw [hsplit, List.drop_left' hlength]

end CTRState

/-! ## Moving the bytes in the buffer -/

@[simp] theorem ok_bind {ε α β : Type} (a : α) (f : α → Except ε β) : (Except.ok a >>= f) = f a := rfl

theorem ensure_of {condition : Prop} [Decidable condition] (h : condition) :
    ensure condition = .ok () := if_pos h

theorem subspan_of {span : List UInt8} {offset count : ℕ} (h : offset + count ≤ span.length) :
    subspan span offset count = .ok ((span.drop offset).take count) := by
  rw [subspan, ensure_of h]
  rfl

theorem copyTo_of {target source : List UInt8} (h : source.length ≤ target.length) :
    TcpConnection.copyTo target source = .ok (overwrite target 0 source) := by
  rw [TcpConnection.copyTo, ensure_of h]
  rfl

namespace TcpConnection

variable {encrypt : Block → Block} {protocol : Protocol} {c : TcpConnection} {todo : List (List UInt8)}

/-- The bytes that were read and not handed over. -/
def content (c : TcpConnection) : List UInt8 := (c.buffer.drop c.offsetBytes).take c.readBytes

/-- The small buffer is in use and of its full size. -/
structure Small (c : TcpConnection) : Prop where
  length : c.smallBuffer.length = kSmallBufferSize
  using_ : c.usingLargeBuffer = false
  large : c.largeBuffer = []
  inside : c.offsetBytes + c.readBytes ≤ kSmallBufferSize

theorem Small.buffer (h : c.Small) : c.buffer = c.smallBuffer := by
  rw [TcpConnection.buffer, h.using_]
  rfl

/-- What `ensureAvailableInBuffer` leaves alone, and what it makes room for. -/
structure Available (amount : ℕ) (c c' : TcpConnection) : Prop where
  content : c'.content = c.content
  read : c'.readBytes = c.readBytes
  left : c'.leftBytes = c.leftBytes
  packets : c'.packets = c.packets
  state : c'.receiveState = c.receiveState
  length : c'.smallBuffer.length = kSmallBufferSize
  room : c'.offsetBytes + amount ≤ c'.buffer.length
  inside : c'.offsetBytes + c'.readBytes ≤ c'.buffer.length
  small : amount ≤ kSmallBufferSize → c'.Small
  moved : c'.offsetBytes = c.offsetBytes ∧ c'.smallBuffer = c.smallBuffer ∨
    kSmallBufferSize < c.offsetBytes + amount ∧ c'.offsetBytes = 0 ∧
      ∀ start, c.readBytes ≤ start → c'.smallBuffer.drop start = c.smallBuffer.drop start

theorem Small.ensureAvailableInBuffer (h : c.Small) (amount : ℕ)
    (hread : kSmallBufferSize < c.offsetBytes + amount → c.readBytes ≤ amount) :
    ∃ c', c.ensureAvailableInBuffer amount = .ok c' ∧ Available amount c c' := by
  obtain ⟨hlength, husing, hlarge, hinside⟩ := h
  have hbuffer : c.buffer = c.smallBuffer := Small.buffer ⟨hlength, husing, hlarge, hinside⟩
  have hcontent : c.content.length = c.readBytes := by
    rw [content, hbuffer, List.length_take, List.length_drop]
    omega
  unfold TcpConnection.ensureAvailableInBuffer
  rw [ensure_of (by rw [hbuffer]; omega), ok_bind]
  dsimp only
  by_cases hfits : amount ≤ (c.buffer.drop c.offsetBytes).length
  · rw [if_pos hfits]
    rw [hbuffer, List.length_drop] at hfits
    refine ⟨c, rfl, rfl, rfl, rfl, rfl, rfl, hlength, ?_, ?_, fun _ => ⟨hlength, husing, hlarge,
      hinside⟩, .inl ⟨rfl, rfl⟩⟩ <;> rw [hbuffer] <;> omega
  · rw [if_neg hfits]
    rw [hbuffer, List.length_drop] at hfits
    have hspan : subspan (c.buffer.drop c.offsetBytes) 0 c.readBytes = .ok c.content := by
      rw [subspan_of (by rw [hbuffer, List.length_drop]; omega)]
      rfl
    rw [hspan, ok_bind]
    by_cases hsmall : amount ≤ c.smallBuffer.length
    · rw [if_pos hsmall, copyTo_of (by omega), ok_bind, husing, if_neg (by simp)]
      have hmoved : (overwrite c.smallBuffer 0 c.content).length = kSmallBufferSize := by
        rw [length_overwrite _ _ (Nat.zero_le _)]
        omega
      have hfront : (overwrite c.smallBuffer 0 c.content).take c.readBytes = c.content := by
        have htake := take_overwrite c.smallBuffer c.content (Nat.zero_le _)
        rwa [hcontent, Nat.zero_add, List.take_zero, List.nil_append] at htake
      refine ⟨_, rfl, ?_⟩
      exact {
        content := hfront
        read := rfl
        left := rfl
        packets := rfl
        state := rfl
        length := hmoved
        room := by
          simp only [TcpConnection.buffer, Bool.false_eq_true, if_false]
          omega
        inside := by
          simp only [TcpConnection.buffer, Bool.false_eq_true, if_false]
          omega
        small := fun _ => ⟨hmoved, rfl, hlarge, by dsimp only; omega⟩
        moved := .inr ⟨by omega, rfl, fun start hstart => by
          have hdrop := drop_overwrite c.smallBuffer c.content (Nat.zero_le _)
          rw [hcontent, Nat.zero_add] at hdrop
          have hsplit : start = c.readBytes + (start - c.readBytes) := by omega
          rw [hsplit, ← List.drop_drop, hdrop, List.drop_drop]⟩ }
    · rw [if_neg hsmall, if_neg (by rw [hlarge]; simp; omega), copyTo_of (by simp; omega), ok_bind]
      have hread' : c.readBytes ≤ amount := hread (by omega)
      have hlength' : (overwrite (List.replicate amount 0) 0 c.content).length = amount := by
        rw [length_overwrite _ _ (Nat.zero_le _), List.length_replicate]
        omega
      refine ⟨_, rfl, ?_⟩
      exact {
        content := by
          have htake := take_overwrite (List.replicate amount 0) c.content (Nat.zero_le _)
          rw [hcontent, Nat.zero_add, List.take_zero, List.nil_append] at htake
          exact htake
        read := rfl
        left := rfl
        packets := rfl
        state := rfl
        length := hlength
        room := by
          simp only [TcpConnection.buffer, if_true]
          omega
        inside := by
          simp only [TcpConnection.buffer, if_true]
          omega
        small := fun hle => absurd hle (by omega)
        moved := .inr ⟨by omega, rfl, fun _ _ => rfl⟩ }

/-! ## Between two reads -/

/-- Too little is there to tell the length of the next packet, and the buffer has room. -/
structure Idle (protocol : Protocol) (todo : List (List UInt8)) (c : TcpConnection) : Prop where
  small : c.Small
  room : c.offsetBytes + kMinPacketBuffer ≤ kSmallBufferSize
  short : ∀ packet rest head, todo = packet :: rest → protocol.Delimited packet head →
    c.readBytes < head

/-- The length of the next packet is known, and the buffer has room for it. -/
structure Partial (todo : List (List UInt8)) (c : TcpConnection) : Prop where
  length : c.smallBuffer.length = kSmallBufferSize
  inside : c.offsetBytes + c.readBytes ≤ c.buffer.length
  next : ∃ packet rest, todo = packet :: rest ∧ c.readBytes + c.leftBytes = packet.length ∧
    c.offsetBytes + packet.length ≤ c.buffer.length

/-- What the buffer holds, with `todo` still to be handed over. -/
structure Holds (protocol : Protocol) (todo : List (List UInt8)) (c : TcpConnection) : Prop where
  content : c.content = todo.flatten.take c.readBytes
  read : c.readBytes ≤ todo.flatten.length
  idle : c.leftBytes = 0 → Idle protocol todo c
  part : 0 < c.leftBytes → Partial todo c

/-- A step hands over packets from the front of `todo` and loses no byte. -/
structure Leads (protocol : Protocol) (todo : List (List UInt8)) (c : TcpConnection)
    (todo' : List (List UInt8)) (c' : TcpConnection) : Prop where
  holds : Holds protocol todo' c'
  state : c'.receiveState = c.receiveState
  packets : c.packets ++ todo = c'.packets ++ todo'
  rest : todo'.flatten.drop c'.readBytes = todo.flatten.drop c.readBytes

/-- Where the loop over the packets finds its bytes: at `_offsetBytes`, or at the place from which
they were moved to the front. -/
structure Span (todo : List (List UInt8)) (start : ℕ) (c : TcpConnection) : Prop where
  bytes : (c.smallBuffer.drop start).take c.readBytes = todo.flatten.take c.readBytes
  inside : start + c.readBytes ≤ kSmallBufferSize
  place : start = c.offsetBytes ∨
    kMinPacketBuffer ≤ start ∧ c.offsetBytes + c.readBytes ≤ kMinPacketBuffer

/-- While the length of the next packet is unknown nothing happens. -/
theorem leads_of_short (hsmall : c.Small)
    (hroom : c.offsetBytes + kMinPacketBuffer ≤ kSmallBufferSize) (hleft : c.leftBytes = 0)
    (hcontent : c.content = todo.flatten.take c.readBytes)
    (hread : c.readBytes ≤ todo.flatten.length)
    (hshort : ∀ packet rest head, todo = packet :: rest → protocol.Delimited packet head →
      c.readBytes < head) : Leads protocol todo c todo c :=
  ⟨⟨hcontent, hread, fun _ => ⟨hsmall, hroom, hshort⟩, fun h => absurd h (by omega)⟩, rfl, rfl, rfl⟩

/-- The first packet is taken from the buffer and room is made for the next one. -/
theorem take_packet {start : ℕ} {packet : List UInt8} {rest : List (List UInt8)} (hsmall : c.Small)
    (hle : packet.length ≤ c.readBytes)
    (hcontent : c.content = (packet :: rest).flatten.take c.readBytes)
    (hspan : Span (packet :: rest) start c) :
    ∃ c', ((c.socketPacket packet).skip packet.length).ensureAvailableInBuffer
        kMinPacketBuffer = .ok c' ∧
      c'.Small ∧ c'.offsetBytes + kMinPacketBuffer ≤ kSmallBufferSize ∧
      c'.leftBytes = c.leftBytes ∧ c'.readBytes = c.readBytes - packet.length ∧
      c'.packets = c.packets ++ [packet] ∧ c'.receiveState = c.receiveState ∧
      c'.content = rest.flatten.take c'.readBytes ∧ Span rest (start + packet.length) c' := by
  have hminimal : kMinPacketBuffer = 256 := rfl
  have hsize : kSmallBufferSize = 262144 := rfl
  obtain ⟨hlength, husing, hlarge, hinside⟩ := hsmall
  obtain ⟨hbytes, hspanInside, hplace⟩ := hspan
  set c₁ := (c.socketPacket packet).skip packet.length with hc₁
  have hoffset₁ : c₁.offsetBytes = c.offsetBytes + packet.length := rfl
  have hread₁ : c₁.readBytes = c.readBytes - packet.length := rfl
  have hsmall₁ : c₁.Small := ⟨hlength, husing, hlarge, by omega⟩
  obtain ⟨c', hc', hcontent', hread', hleft', hpackets', hstate', -, hroom', -, hsmall', hmoved⟩ :=
    hsmall₁.ensureAvailableInBuffer kMinPacketBuffer (by omega)
  have hsmall'' := hsmall' (by omega)
  have hfront : ∀ bytes : List UInt8,
      bytes.take c.readBytes = (packet :: rest).flatten.take c.readBytes →
      (bytes.drop packet.length).take (c.readBytes - packet.length) =
        rest.flatten.take (c.readBytes - packet.length) := by
    intro bytes h
    rw [← List.drop_take, h, List.drop_take, List.flatten_cons, List.drop_left' rfl]
  have hbuffer₁ : c₁.buffer = c.buffer := rfl
  rw [hsmall''.buffer, hsmall''.length] at hroom'
  refine ⟨c', hc', hsmall'', hroom', hleft', hread', hpackets', hstate', ?_, ?_, ?_, ?_⟩
  · rw [hcontent', hread', content, hbuffer₁]
    change ((c.buffer.drop (c.offsetBytes + packet.length)).take (c.readBytes - packet.length)) = _
    rw [← List.drop_drop]
    exact hfront _ hcontent
  · have hsame : c'.smallBuffer.drop (start + packet.length) =
        c.smallBuffer.drop (start + packet.length) := by
      rcases hmoved with ⟨-, hsame⟩ | ⟨hend, -, hdrop⟩
      · rw [hsame]
        rfl
      · apply hdrop
        omega
    rw [hsame, hread', ← List.drop_drop]
    exact hfront _ hbytes
  · omega
  · omega

theorem readPackets_leads (hdelimited : ∀ packet ∈ todo, ∃ head, protocol.Delimited packet head)
    {fuel start : ℕ} (hfuel : c.readBytes ≤ fuel) (hsmall : c.Small)
    (hroom : c.offsetBytes + kMinPacketBuffer ≤ kSmallBufferSize) (hleft : c.leftBytes = 0)
    (hcontent : c.content = todo.flatten.take c.readBytes)
    (hread : c.readBytes ≤ todo.flatten.length) (hspan : Span todo start c) :
    ∃ todo' c', c.readPackets protocol fuel start c.readBytes = .ok c' ∧
      Leads protocol todo c todo' c' := by
  induction fuel generalizing c todo start with
  | zero =>
    have hzero : c.readBytes = 0 := by omega
    exact ⟨todo, c, rfl, leads_of_short hsmall hroom hleft hcontent hread
      fun _ _ _ _ hd => hzero ▸ hd.pos⟩
  | succ fuel ih =>
    rw [readPackets]
    by_cases hzero : c.readBytes = 0
    · rw [if_pos hzero]
      exact ⟨todo, c, rfl, leads_of_short hsmall hroom hleft hcontent hread
        fun _ _ _ _ hd => hzero ▸ hd.pos⟩
    · rw [if_neg hzero]
      obtain ⟨packet, rest, rfl⟩ : ∃ packet rest, todo = packet :: rest := by
        apply List.exists_cons_of_ne_nil
        rintro rfl
        simp at hread
        omega
      obtain ⟨head, hhead⟩ := hdelimited packet (by simp)
      set available := (packet :: rest).flatten.take c.readBytes with havailable
      have hlength : available.length = c.readBytes := by
        rw [havailable, List.length_take]
        omega
      have hsubspan : subspan c.buffer start c.readBytes = .ok available := by
        rw [hsmall.buffer, subspan_of (by rw [hsmall.length]; exact hspan.inside), hspan.bytes]
      have hsplit : packet ++ rest.flatten =
          available ++ (packet :: rest).flatten.drop c.readBytes := by
        rw [havailable, List.take_append_drop, List.flatten_cons]
      rw [hsubspan, ok_bind]
      dsimp only
      by_cases hshort : c.readBytes < head
      · -- not enough bytes yet
        rw [if_pos (hhead.unknown hsplit (by omega))]
        refine ⟨_, c, rfl, leads_of_short hsmall hroom hleft hcontent hread
          fun packet' rest' head' heq hd => ?_⟩
        obtain ⟨rfl, rfl⟩ := List.cons.inj heq
        by_contra hle
        have hknown := hd.known hsplit (by omega)
        rw [hhead.unknown hsplit (by omega)] at hknown
        have hpos : (0 : ℤ) ≤ packet.length := Int.natCast_nonneg _
        rw [← hknown] at hpos
        exact absurd hpos (by decide)
      · have hsize := hhead.known hsplit (by omega)
        have hpos : 0 < packet.length := hhead.pos.trans_le hhead.le_length
        rw [hsize, if_neg (by simp only [kUnknownSize]; omega), if_neg (by omega),
          Int.toNat_natCast]
        by_cases hwhole : packet.length ≤ c.readBytes
        · rw [if_pos (by omega), subspan_of (by omega), ok_bind, List.drop_zero]
          have htake : available.take packet.length = packet := by
            rw [havailable, List.take_take, Nat.min_eq_left hwhole, List.flatten_cons,
              List.take_left' rfl]
          obtain ⟨c', hc', hsmall', hroom', hleft', hread', hpackets', hstate', hcontent', hspan'⟩ :=
            take_packet hsmall hwhole hcontent hspan
          rw [htake, hc', ok_bind, ← hread']
          have hrest : (packet :: rest).flatten.length = packet.length + rest.flatten.length := by
            simp
          obtain ⟨todo', c'', hc'', hleads⟩ := ih (fun p hp => hdelimited p (by simp [hp]))
            (by omega) hsmall' hroom' (hleft'.trans hleft) hcontent' (by omega) hspan'
          refine ⟨todo', c'', hc'', hleads.holds, hleads.state.trans hstate', ?_, ?_⟩
          · rw [← hleads.packets, hpackets', List.append_assoc, List.singleton_append]
          · rw [hleads.rest, hread', List.flatten_cons, List.drop_append,
              List.drop_of_length_le hwhole, List.nil_append]
        · rw [if_neg (by omega)]
          have hsmall₁ : Small { c with leftBytes := packet.length - c.readBytes } :=
            ⟨hsmall.length, hsmall.using_, hsmall.large, hsmall.inside⟩
          obtain ⟨c', hc', hcontent', hread', hleft', hpackets', hstate', hlength', hroom',
            hinside', -, -⟩ := hsmall₁.ensureAvailableInBuffer packet.length
              (fun _ => by dsimp only; omega)
          dsimp only at hread' hleft' hpackets' hstate'
          refine ⟨_, c', hc', ⟨?_, ?_, fun h => by omega, fun _ => ⟨hlength', hinside', packet, rest,
            rfl, by omega, hroom'⟩⟩, hstate', by rw [hpackets'], by rw [hread']⟩
          · rw [hread']
            exact hcontent'.trans hcontent
          · omega

/-! ## One read -/

theorem setBuffer_frame (bytes : List UInt8) (c : TcpConnection) :
    (c.setBuffer bytes).buffer = bytes ∧ (c.setBuffer bytes).offsetBytes = c.offsetBytes ∧
      (c.setBuffer bytes).leftBytes = c.leftBytes ∧ (c.setBuffer bytes).packets = c.packets ∧
      (c.setBuffer bytes).usingLargeBuffer = c.usingLargeBuffer := by
  unfold setBuffer buffer
  split <;> simp_all

/-- The bytes that come are put behind those that are there. -/
theorem received_spec {bytes plain : List UInt8} {state : CTRState}
    (hplain : CTRState.aesCtrEncrypt encrypt bytes c.receiveState = (plain, state))
    (hinside : c.offsetBytes + c.readBytes + bytes.length ≤ c.buffer.length) :
    let c' := c.received encrypt bytes
    c'.content = c.content ++ plain ∧ c'.readBytes = c.readBytes + bytes.length ∧
      c'.offsetBytes = c.offsetBytes ∧ c'.leftBytes = c.leftBytes ∧ c'.packets = c.packets ∧
      c'.receiveState = state ∧ c'.buffer.length = c.buffer.length ∧
      c'.smallBuffer.length = c.smallBuffer.length ∧
      c'.usingLargeBuffer = c.usingLargeBuffer ∧
      (c.usingLargeBuffer = false → c'.largeBuffer = c.largeBuffer) := by
  intro c'
  have hlength : plain.length = bytes.length := by
    have h := CTRState.length_aesCtrEncrypt encrypt bytes c.receiveState
    rwa [hplain] at h
  set bytes' := overwrite c.buffer (c.offsetBytes + c.readBytes) plain with hbytes'
  have hlength' : bytes'.length = c.buffer.length := by
    rw [hbytes', length_overwrite _ _ (by omega)]
    omega
  have hc' : c' = { c.setBuffer bytes' with
      receiveState := state, readBytes := c.readBytes + bytes.length } := by
    simp only [c', received, hplain, hbytes']
  obtain ⟨hbuffer, hoffset, hleft, hpackets, husing⟩ := setBuffer_frame bytes' c
  have hbuffer' : c'.buffer = bytes' := by rw [hc']; exact hbuffer
  refine ⟨?_, by rw [hc'], by rw [hc']; exact hoffset, by rw [hc']; exact hleft,
    by rw [hc']; exact hpackets, by rw [hc'], by rw [hbuffer', hlength'], ?_,
    by rw [hc']; exact husing, ?_⟩
  · have htake := take_overwrite c.buffer plain (o := c.offsetBytes + c.readBytes) (by omega)
    rw [← hbytes', hlength, Nat.add_assoc] at htake
    have hcontent : c'.content = (bytes'.drop c.offsetBytes).take (c.readBytes + bytes.length) := by
      rw [content, hbuffer', hc']
      exact congrArg (fun o => (bytes'.drop o).take _) hoffset
    rw [hcontent, List.take_drop, htake, List.drop_append_of_le_length (by simp; omega),
      content, List.take_drop]
  · rw [hc']
    unfold setBuffer at hlength' ⊢
    unfold buffer at hlength'
    split <;> simp_all
  · intro h
    rw [hc']
    simp [setBuffer, h]

/-- What the connection holds, and what is still to come from the socket. -/
def Reads (encrypt : Block → Block) (protocol : Protocol) (frames : List (List UInt8))
    (incoming : List UInt8) (c : TcpConnection) : Prop :=
  ∃ todo, frames = c.packets ++ todo ∧ Holds protocol todo c ∧
    incoming = (CTRState.aesCtrEncrypt encrypt (todo.flatten.drop c.readBytes) c.receiveState).1

variable {frames : List (List UInt8)} {incoming : List UInt8}
  (hdelimited : ∀ packet ∈ frames, ∃ head, protocol.Delimited packet head)
include hdelimited

theorem Idle.read_lt (h : Idle protocol todo c) (hsub : ∀ packet ∈ todo, packet ∈ frames)
    (hread : c.readBytes ≤ todo.flatten.length) : c.readBytes < 4 := by
  cases todo with
  | nil =>
    have hzero : c.readBytes ≤ 0 := by simpa using hread
    omega
  | cons packet rest =>
    obtain ⟨head, hhead⟩ := hdelimited packet (hsub packet (by simp))
    exact (h.short packet rest head rfl hhead).trans_le hhead.le_four

/-- What is done after a read, with the bytes in place. -/
theorem afterRead_leads (hsub : ∀ packet ∈ todo, packet ∈ frames) (count : ℕ)
    (hcontent : c.content = todo.flatten.take c.readBytes)
    (hread : c.readBytes ≤ todo.flatten.length)
    (hidle : c.leftBytes = 0 → c.Small ∧ c.offsetBytes + kMinPacketBuffer ≤ kSmallBufferSize)
    (hpart : 0 < c.leftBytes → count ≤ c.leftBytes ∧ c.smallBuffer.length = kSmallBufferSize ∧
      c.offsetBytes + c.readBytes ≤ c.buffer.length ∧
      ∃ packet rest, todo = packet :: rest ∧ c.readBytes + c.leftBytes = packet.length + count ∧
        c.offsetBytes + packet.length ≤ c.buffer.length) :
    ∃ todo' c', c.afterRead protocol count = .ok c' ∧ Leads protocol todo c todo' c' := by
  unfold afterRead
  by_cases hleft : 0 < c.leftBytes
  · obtain ⟨hcount, hlength, hinside, packet, rest, rfl, hnext, hroom⟩ := hpart hleft
    rw [if_pos hleft, ensure_of hcount, ok_bind]
    dsimp only
    by_cases hdone : c.leftBytes - count = 0
    · -- the packet is complete
      have hwhole : c.readBytes = packet.length := by omega
      have hpacket : (c.buffer.drop c.offsetBytes).take c.readBytes = packet := by
        change c.content = packet
        rw [hcontent, hwhole, List.flatten_cons, List.take_left' rfl]
      rw [if_pos hdone]
      change ∃ todo' c', (subspan c.buffer c.offsetBytes c.readBytes >>= _) = _ ∧ _
      rw [subspan_of hinside, ok_bind, hpacket]
      refine ⟨rest, _, rfl, ⟨?_, ?_, ?_, ?_⟩, rfl, ?_, ?_⟩
      · simp [content]
      · simp
      · intro _
        refine ⟨⟨hlength, rfl, rfl, by simp⟩, by simp [kMinPacketBuffer, kSmallBufferSize], ?_⟩
        exact fun _ _ _ _ hd => hd.pos
      · intro h
        exact absurd hdone h.ne'
      · simp [socketPacket]
      · rw [hwhole, List.flatten_cons, List.drop_left' rfl]
        rfl
    · rw [if_neg hdone]
      refine ⟨_, _, rfl, ⟨hcontent, hread, fun h => absurd h hdone, fun _ => ⟨hlength, hinside, packet,
        rest, rfl, ?_, hroom⟩⟩, rfl, rfl, rfl⟩
      dsimp only
      omega
  · have hzero : c.leftBytes = 0 := by omega
    obtain ⟨hsmall, hroom⟩ := hidle hzero
    rw [if_neg hleft, ensure_of (by rw [hsmall.buffer, hsmall.length]; exact hsmall.inside), ok_bind]
    refine readPackets_leads (fun packet hp => hdelimited packet (hsub packet hp)) le_rfl hsmall hroom
      hzero hcontent hread ⟨?_, hsmall.inside, .inl rfl⟩
    rw [← hsmall.buffer]
    exact hcontent

/-- A round of `socketRead` takes at least one byte, while there are any. -/
theorem readOnce_reads (h : Reads encrypt protocol frames incoming c) (want : ℕ) :
    ∃ incoming' c', readOnce encrypt protocol want incoming c = .ok (incoming', c') ∧
      Reads encrypt protocol frames incoming' c' ∧ incoming'.length ≤ incoming.length - 1 := by
  have hminimal : kMinPacketBuffer = 256 := rfl
  obtain ⟨todo, hframes, hholds, hincoming⟩ := h
  have hsub : ∀ packet ∈ todo, packet ∈ frames := fun packet hp => by simp [hframes, hp]
  obtain ⟨hcontent, hread, hidle, hpart⟩ := hholds
  -- there is room for what the socket is asked for
  set readLimit := if 0 < c.leftBytes then c.leftBytes
    else kSmallBufferSize - c.offsetBytes - c.readBytes with hlimit
  have hroom : 0 < readLimit ∧ c.offsetBytes + c.readBytes + readLimit ≤ c.buffer.length := by
    by_cases hleft : 0 < c.leftBytes
    · obtain ⟨-, -, packet, rest, -, hnext, hroom⟩ := hpart hleft
      rw [hlimit, if_pos hleft]
      omega
    · have hi := hidle (by omega)
      have hlt := hi.read_lt hdelimited hsub hread
      have hinside := hi.small.inside
      have hfree := hi.room
      rw [hlimit, if_neg hleft, hi.small.buffer, hi.small.length]
      omega
  obtain ⟨hpos, hfree⟩ := hroom
  unfold readOnce
  dsimp only
  rw [← hlimit, ensure_of hpos, ok_bind, ensure_of (by omega), ok_bind, ensure_of (by omega), ok_bind]
  by_cases hnone : readCount want readLimit incoming = 0
  · rw [if_pos hnone]
    have hempty : incoming.length = 0 := by
      simp only [readCount] at hnone
      omega
    exact ⟨incoming, c, rfl, ⟨todo, hframes, ⟨hcontent, hread, hidle, hpart⟩, hincoming⟩, by omega⟩
  · rw [if_neg hnone]
    set count := readCount want readLimit incoming with hcount
    have hcounts : count ≤ readLimit ∧ count ≤ incoming.length := by
      simp only [hcount, readCount]
      omega
    have hplainLength : incoming.length = todo.flatten.length - c.readBytes := by
      rw [hincoming, CTRState.length_aesCtrEncrypt, List.length_drop]
    obtain ⟨state, hplain, hrest⟩ := CTRState.aesCtrEncrypt_take encrypt
      (todo.flatten.drop c.readBytes) c.receiveState (n := count) (by rw [List.length_drop]; omega)
    rw [← hincoming] at hplain hrest
    have hlength : (incoming.take count).length = count := by simp [hcounts.2]
    obtain ⟨hcontent₁, hread₁, hoffset₁, hleft₁, hpackets₁, hstate₁, hbuffer₁, hsmall₁, husing₁,
      hlarge₁⟩ := received_spec hplain (by omega)
    rw [hlength] at hread₁
    set c₁ := c.received encrypt (incoming.take count) with hc₁
    have hcontent₁' : c₁.content = todo.flatten.take c₁.readBytes := by
      rw [hcontent₁, hcontent, hread₁, List.take_add]
    obtain ⟨todo', c', hc', hleads⟩ := afterRead_leads hdelimited hsub count hcontent₁'
      (by omega) (fun hzero => by
        have hi := hidle (by omega)
        refine ⟨⟨hsmall₁.trans hi.small.length, husing₁.trans hi.small.using_,
          (hlarge₁ hi.small.using_).trans hi.small.large, ?_⟩, by rw [hoffset₁]; exact hi.room⟩
        rw [hi.small.buffer, hi.small.length] at hfree
        omega)
      (fun hpos₁ => by
        rw [hleft₁] at hpos₁
        obtain ⟨hlength', hinside', packet, rest, htodo, hnext, hroom⟩ := hpart hpos₁
        rw [if_pos hpos₁] at hlimit
        exact ⟨by omega, hsmall₁.trans hlength', by omega, packet, rest, htodo, by omega, by omega⟩)
    refine ⟨incoming.drop count, c', by rw [hc', ok_bind]; rfl, ⟨todo', ?_, hleads.holds, ?_⟩, ?_⟩
    · rw [hframes, ← hleads.packets, hpackets₁]
    · rw [hrest, hleads.rest, hleads.state, hstate₁, hread₁, List.drop_drop]
    · rw [List.length_drop]
      omega

/-! ## Runs -/

theorem foldlM_readOnce_reads (h : Reads encrypt protocol frames incoming c) (wants : List ℕ) :
    ∃ incoming' c', wants.foldlM (fun (incoming, c) want => readOnce encrypt protocol want incoming c)
        (incoming, c) = .ok (incoming', c') ∧
      Reads encrypt protocol frames incoming' c' ∧
      incoming'.length ≤ incoming.length - wants.length := by
  induction wants generalizing incoming c with
  | nil => exact ⟨incoming, c, rfl, h, by simp⟩
  | cons want wants ih =>
    obtain ⟨incoming₁, c₁, hc₁, hreads₁, hlength₁⟩ := readOnce_reads hdelimited h want
    obtain ⟨incoming', c', hc', hreads', hlength'⟩ := ih hreads₁
    refine ⟨incoming', c', ?_, hreads', by rw [List.length_cons]; omega⟩
    rw [List.foldlM_cons]
    change (readOnce encrypt protocol want incoming c >>= _) = _
    rw [hc₁, ok_bind]
    exact hc'

/-- Before the first call there is no buffer yet. -/
theorem socketRead_reads (h : Reads encrypt protocol frames incoming c.resized) (wants : List ℕ) :
    ∃ incoming' c', socketRead encrypt protocol wants incoming c = .ok (incoming', c') ∧
      Reads encrypt protocol frames incoming' c'.resized ∧
      incoming'.length ≤ incoming.length - wants.length := by
  have hframe : c.resized.leftBytes = c.leftBytes ∧
      c.resized.usingLargeBuffer = c.usingLargeBuffer := by
    unfold resized
    split <;> exact ⟨rfl, rfl⟩
  have hexpects : 0 < c.leftBytes ∨ c.usingLargeBuffer = false := by
    obtain ⟨todo, -, hholds, -⟩ := h
    rcases Nat.eq_zero_or_pos c.leftBytes with hzero | hpos
    · exact .inr (hframe.2 ▸ (hholds.idle (hframe.1.trans hzero)).small.using_)
    · exact .inl hpos
  obtain ⟨incoming', c', hc', hreads', hlength⟩ := foldlM_readOnce_reads hdelimited h wants
  refine ⟨incoming', c', ?_, ?_, hlength⟩
  · rw [socketRead, ensure_of hexpects, ok_bind]
    exact hc'
  · have hlength' : c'.smallBuffer.length = kSmallBufferSize := by
      obtain ⟨todo, -, hholds, -⟩ := hreads'
      rcases Nat.eq_zero_or_pos c'.leftBytes with hzero | hpos
      · exact (hholds.idle hzero).small.length
      · exact (hholds.part hpos).length
    have hne : c'.smallBuffer ≠ [] := by
      rintro hnil
      rw [hnil] at hlength'
      exact absurd hlength' (by decide)
    rwa [resized, if_neg hne]

theorem run_reads (h : Reads encrypt protocol frames incoming c.resized) (calls : List (List ℕ)) :
    ∃ incoming' c', run encrypt protocol calls incoming c = .ok (incoming', c') ∧
      Reads encrypt protocol frames incoming' c'.resized ∧
      incoming'.length ≤ incoming.length - calls.flatten.length := by
  induction calls generalizing incoming c with
  | nil => exact ⟨incoming, c, rfl, h, by simp⟩
  | cons wants calls ih =>
    obtain ⟨incoming₁, c₁, hc₁, hreads₁, hlength₁⟩ := socketRead_reads hdelimited h wants
    obtain ⟨incoming', c', hc', hreads', hlength'⟩ := ih hreads₁
    refine ⟨incoming', c', ?_, hreads', by rw [List.flatten_cons, List.length_append]; omega⟩
    rw [run, List.foldlM_cons]
    change (socketRead encrypt protocol wants incoming c >>= _) = _
    rw [hc₁, ok_bind]
    exact hc'

omit hdelimited

theorem packets_resized (c : TcpConnection) : c.resized.packets = c.packets := by
  unfold resized
  split <;> rfl

theorem reads_start (encrypt : Block → Block) (protocol : Protocol) (frames : List (List UInt8))
    (state : CTRState) :
    Reads encrypt protocol frames (CTRState.aesCtrEncrypt encrypt frames.flatten state).1
      (resized { receiveState := state }) := by
  refine ⟨frames, rfl, ⟨rfl, Nat.zero_le _, fun _ => ⟨⟨?_, rfl, rfl, Nat.zero_le _⟩, ?_, ?_⟩,
    fun h => absurd h (Nat.lt_irrefl 0)⟩, rfl⟩
  · exact List.length_replicate
  · change 0 + kMinPacketBuffer ≤ kSmallBufferSize
    decide
  · exact fun _ _ _ _ hd => hd.pos

/-- When no byte is left, no packet is. -/
theorem Reads.done (hdelimited : ∀ packet ∈ frames, ∃ head, protocol.Delimited packet head)
    (h : Reads encrypt protocol frames [] c) : c.packets = frames := by
  obtain ⟨todo, hframes, hholds, hincoming⟩ := h
  have hall : todo.flatten.length ≤ c.readBytes := by
    have hlength := congrArg List.length hincoming
    rw [CTRState.length_aesCtrEncrypt, List.length_drop] at hlength
    simp only [List.length_nil] at hlength
    omega
  cases todo with
  | nil => simp [hframes]
  | cons packet rest =>
    obtain ⟨head, hhead⟩ := hdelimited packet (by simp [hframes])
    have hlength : packet.length ≤ (packet :: rest).flatten.length := by simp
    have hhead' := hhead.le_length
    rcases Nat.eq_zero_or_pos c.leftBytes with hzero | hpos
    · have hshort := (hholds.idle hzero).short packet rest head rfl hhead
      omega
    · obtain ⟨-, -, packet', rest', heq, hnext, -⟩ := hholds.part hpos
      obtain ⟨rfl, -⟩ := List.cons.inj heq
      omega

/-- However the encrypted stream of the peer is cut into reads and calls, no check fails, and the
packets that were handed over are the first ones the peer sent; all of them once all bytes were
read, which takes no more reads than there are bytes. -/
theorem run_hands_over (encrypt : Block → Block) (protocol : Protocol)
    (payloads : List (List UInt8)) (hframed : ∀ payload ∈ payloads, protocol.Framed payload)
    (state : CTRState) (calls : List (List ℕ)) :
    let frames := payloads.map protocol.frame
    let stream := (CTRState.aesCtrEncrypt encrypt frames.flatten state).1
    ∃ incoming c, run encrypt protocol calls stream { receiveState := state } = .ok (incoming, c) ∧
      c.packets <+: frames ∧ (incoming = [] → c.packets = frames) ∧
      (stream.length ≤ calls.flatten.length → incoming = []) ∧
      frames.map protocol.readPacket = payloads.map some := by
  intro frames stream
  have hdelimited : ∀ packet ∈ frames, ∃ head, protocol.Delimited packet head := by
    intro packet hp
    obtain ⟨payload, hmem, rfl⟩ := List.mem_map.mp hp
    exact Protocol.exists_delimited (hframed payload hmem)
  obtain ⟨incoming, c, hc, hreads, hlength⟩ :=
    run_reads hdelimited (reads_start encrypt protocol frames state) calls
  refine ⟨incoming, c, hc, ?_, ?_, fun hall => ?_, ?_⟩
  · obtain ⟨todo, hframes, -⟩ := hreads
    rw [packets_resized] at hframes
    exact ⟨todo, hframes.symm⟩
  · rintro rfl
    rw [← packets_resized]
    exact hreads.done hdelimited
  · change incoming.length ≤ stream.length - _ at hlength
    exact List.eq_nil_of_length_eq_zero (by omega)
  · rw [List.map_map]
    apply List.map_congr_left
    intro payload hmem
    exact Protocol.readPacket_frame (hframed payload hmem)

/-- Two packets, the length of the second one cut in the middle. -/
theorem run_hands_over_twoPackets :
    let state : CTRState := ⟨Storage.blockOfNat 7, Storage.blockOfNat 0, 0⟩
    let frames := [[1, 2, 3, 4], [5, 6, 7, 8]].map Protocol.versionD.frame
    let stream := (CTRState.aesCtrEncrypt id frames.flatten state).1
    ∃ incoming c, run id .versionD [[4], [1, 0, 8]] stream { receiveState := state } =
        .ok (incoming, c) ∧
      c.packets <+: frames ∧ (incoming = [] → c.packets = frames) ∧
      (stream.length ≤ 4 → incoming = []) ∧
      frames.map Protocol.versionD.readPacket = [some [1, 2, 3, 4], some [5, 6, 7, 8]] :=
  run_hands_over id .versionD [[1, 2, 3, 4], [5, 6, 7, 8]]
    (by simp [Protocol.Framed, kPacketSizeMax])
    ⟨Storage.blockOfNat 7, Storage.blockOfNat 0, 0⟩ [[4], [1, 0, 8]]

end TcpConnection

end Bettergram.Mtproto
