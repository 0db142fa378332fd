import Bettergram.Mtproto.TcpReading

/-! # Framing a packet

A buffer comes with two ints free in front of the data, where the length is
written. The largest buffers that are let through have lengths that the reading
side refuses.
-/

namespace Bettergram.Mtproto
open Foundation

/-- The ints of a buffer as they lie in memory. -/
def bufferBytes (buffer : List UInt32) : List UInt8 := buffer.flatMap fun v => leBytes 4 v.toNat

namespace Protocol

def finalizePacket₀ (buffer : List UInt32) : Except SocketFailure (List UInt8) := do
  ensure (2 < buffer.length ∧ buffer.length < 0x1000003)
  let intsSize := UInt32.ofNat (buffer.length - 2)
  let bytesSize := intsSize.toNat * 4
  let data := bufferBytes buffer
  if intsSize < 0x7F then
    subspan (data.set 7 intsSize.toUInt8) (8 - 1) (1 + bytesSize)
  else
    let data := (((data.set 4 0x7F).set 5 (intsSize &&& 0xFF).toUInt8).set 6
      (intsSize >>> 8 &&& 0xFF).toUInt8).set 7 (intsSize >>> 16 &&& 0xFF).toUInt8
    subspan data (8 - 4) (4 + bytesSize)

/-- The loop that adds random ints until they take the padding. -/
def pushPadding (next : ℕ → UInt32) (padding added : ℕ) (buffer : List UInt32) : List UInt32 :=
  if added < padding then pushPadding next padding (added + 4) (buffer ++ [next added]) else buffer
termination_by padding - added

/-- `random` is the first random value that is taken, `next` gives the others. -/
def finalizePacketD (random : UInt32) (next : ℕ → UInt32) (buffer : List UInt32) :
    Except SocketFailure (List UInt8) := do
  ensure (2 < buffer.length ∧ buffer.length < 0x1000003)
  let intsSize := UInt32.ofNat (buffer.length - 2)
  let padding := random &&& 0x0F
  let bytesSize := intsSize.toNat * 4 + padding.toNat
  let buffer := pushPadding next padding.toNat 0 (buffer.set 1 (UInt32.ofNat bytesSize))
  subspan (bufferBytes buffer) 4 (4 + bytesSize)

def finalizePacket (random : UInt32) (next : ℕ → UInt32) :
    Protocol → List UInt32 → Except SocketFailure (List UInt8)
  | .version0 | .version1 => finalizePacket₀
  | .versionD => finalizePacketD random next

/-- A packet is read from the front of a stream, whatever follows, as the payload with at most the
random tail; a part of it is not read as something else. -/
structure ReadBack (p : Protocol) (payload packet tail : List UInt8) : Prop where
  tail_le : tail.length ≤ 15
  tail_eq : p ≠ .versionD → tail = []
  size : ∀ more, p.readPacketLength (packet ++ more) = packet.length
  read : ∀ more, p.readPacket (packet ++ more) = some (payload ++ tail)
  partly : ∀ bytes rest, packet = bytes ++ rest →
    p.readPacketLength bytes = kUnknownSize ∨ p.readPacketLength bytes = packet.length

/-- The number of ints fits in three bytes, or the size with the tail is below the limit. -/
def Fits (random : UInt32) (buffer : List UInt32) : Protocol → Prop
  | .version0 | .version1 => buffer.length - 2 < 2 ^ 24
  | .versionD => 4 * (buffer.length - 2) + (random &&& 0x0F).toNat + 4 < kPacketSizeMax

end Protocol

/-! ## What is framed -/

@[simp] theorem bufferBytes_cons (v : UInt32) (buffer : List UInt32) :
    bufferBytes (v :: buffer) = leBytes 4 v.toNat ++ bufferBytes buffer := rfl

@[simp] theorem bufferBytes_append (buffer more : List UInt32) :
    bufferBytes (buffer ++ more) = bufferBytes buffer ++ bufferBytes more :=
  List.flatMap_append

@[simp] theorem length_bufferBytes (buffer : List UInt32) :
    (bufferBytes buffer).length = 4 * buffer.length := by
  induction buffer with
  | nil => rfl
  | cons v buffer ih =>
    rw [bufferBytes_cons, List.length_append, length_leBytes, ih, List.length_cons]
    omega

namespace Protocol

variable {next : ℕ → UInt32} {random : UInt32} {p : Protocol}

theorem pushPadding_spec (next : ℕ → UInt32) (padding added : ℕ) (buffer : List UInt32) :
    ∃ more, pushPadding next padding added buffer = buffer ++ more ∧
      padding ≤ added + 4 * more.length := by
  fun_induction pushPadding next padding added buffer with
  | case1 added buffer hlt ih =>
    obtain ⟨more, hmore, hle⟩ := ih
    refine ⟨next added :: more, by simpa using hmore, ?_⟩
    rw [List.length_cons]
    omega
  | case2 added buffer hlt => exact ⟨[], by simp, by omega⟩

theorem toNat_intsSize {n : ℕ} (h : n < 2 ^ 32) : (UInt32.ofNat n).toNat = n := by
  rw [UInt32.toNat_ofNat', Nat.mod_eq_of_lt h]

/-- A byte of the number of ints. -/
theorem byte_intsSize {n : ℕ} (h : n < 2 ^ 32) (k : UInt32) (hk : k.toNat < 32) :
    (UInt32.ofNat n >>> k &&& 0xFF).toUInt8 = UInt8.ofNat (n / 2 ^ k.toNat) := by
  apply UInt8.toNat_inj.mp
  have hff : (0xFF : UInt32).toNat = 2 ^ 8 - 1 := rfl
  rw [UInt32.toNat_toUInt8, UInt32.toNat_and, UInt32.toNat_shiftRight, toNat_intsSize h,
    Nat.mod_eq_of_lt hk, hff, Nat.and_two_pow_sub_one_eq_mod, Nat.shiftRight_eq_div_pow,
    UInt8.toNat_ofNat', Nat.mod_mod]

variable {a b : UInt32} {ints : List UInt32}

/-- The two ints in front of the data, byte by byte. -/
theorem bufferBytes_front (a b : UInt32) (ints : List UInt32) :
    ∃ x₀ x₁ x₂ x₃ x₄ x₅ x₆ x₇, bufferBytes (a :: b :: ints) =
      x₀ :: x₁ :: x₂ :: x₃ :: x₄ :: x₅ :: x₆ :: x₇ :: bufferBytes ints :=
  ⟨_, _, _, _, _, _, _, _, rfl⟩

/-- Words are written with their number in front. -/
theorem finalizePacket₀_eq (hpos : 0 < ints.length) (hlt : ints.length + 2 < 0x1000003) :
    finalizePacket₀ (a :: b :: ints) = .ok (version0.frame (bufferBytes ints)) := by
  have hlength : (a :: b :: ints).length - 2 = ints.length := by simp
  have hsize : (UInt32.ofNat ints.length).toNat = ints.length := toNat_intsSize (by omega)
  have hwords : (bufferBytes ints).length / 4 = ints.length := by
    rw [length_bufferBytes]
    omega
  have hless : UInt32.ofNat ints.length < 0x7F ↔ ints.length < 0x7F := by
    rw [UInt32.lt_iff_toNat_lt, hsize]
    rfl
  have hexpects : 2 < (a :: b :: ints).length ∧ (a :: b :: ints).length < 0x1000003 := by
    simp only [List.length_cons]
    omega
  obtain ⟨x₀, x₁, x₂, x₃, x₄, x₅, x₆, x₇, hdata⟩ := bufferBytes_front a b ints
  unfold finalizePacket₀
  simp only [ensure_of hexpects, ok_bind, hlength, hsize, hdata, hless, frame, hwords]
  by_cases hshort : ints.length < 0x7F
  · have hfirst : (UInt32.ofNat ints.length).toUInt8 = UInt8.ofNat ints.length := by
      simpa using byte_intsSize (n := ints.length) (by omega) 0 (by decide)
    rw [if_pos hshort, if_pos hshort, subspan_of (by simp; omega), hfirst]
    simp only [List.set_cons_succ, List.set_cons_zero, Nat.reduceSub, List.drop_succ_cons,
      List.drop_zero]
    exact congrArg Except.ok (List.take_of_length_le (by simp; omega))
  · have hlow := byte_intsSize (n := ints.length) (by omega) 0 (by decide)
    have hmiddle := byte_intsSize (n := ints.length) (by omega) 8 (by decide)
    have hhigh := byte_intsSize (n := ints.length) (by omega) 16 (by decide)
    rw [UInt32.shiftRight_zero] at hlow
    rw [if_neg hshort, if_neg hshort, subspan_of (by simp; omega), hlow, hmiddle, hhigh]
    simp only [List.set_cons_succ, List.set_cons_zero, Nat.reduceSub, List.drop_succ_cons,
      List.drop_zero]
    rw [List.take_of_length_le (by simp; omega)]
    simp [leBytes, Nat.div_div_eq_div_mul]

/-- Behind the words comes a tail that the size counts, of the random size. -/
theorem finalizePacketD_eq (hpos : 0 < ints.length) (hlt : ints.length + 2 < 0x1000003) :
    ∃ tail : List UInt8, tail.length = (random &&& 0x0F).toNat ∧
      finalizePacketD random next (a :: b :: ints) =
        .ok (versionD.frame (bufferBytes ints ++ tail)) := by
  obtain ⟨padding, hpadding⟩ : ∃ padding, (random &&& 0x0F).toNat = padding := ⟨_, rfl⟩
  have hlength : (a :: b :: ints).length - 2 = ints.length := by simp
  have hsize : (UInt32.ofNat ints.length).toNat = ints.length := toNat_intsSize (by omega)
  have hexpects : 2 < (a :: b :: ints).length ∧ (a :: b :: ints).length < 0x1000003 := by
    simp only [List.length_cons]
    omega
  have hle : padding < 2 ^ 4 := by
    rw [← hpadding, UInt32.toNat_and]
    exact Nat.and_lt_two_pow _ (by decide)
  obtain ⟨more, hmore, hroom⟩ := pushPadding_spec next padding 0
    (a :: UInt32.ofNat (ints.length * 4 + padding) :: ints)
  rw [Nat.zero_add] at hroom
  have htail : ((bufferBytes more).take padding).length = padding := by
    rw [List.length_take, length_bufferBytes]
    omega
  refine ⟨(bufferBytes more).take padding, htail.trans hpadding.symm, ?_⟩
  have hwords : (bufferBytes ints ++ (bufferBytes more).take padding).length =
      ints.length * 4 + padding := by
    rw [List.length_append, htail, length_bufferBytes]
    omega
  have hbytes : (UInt32.ofNat (ints.length * 4 + padding)).toNat = ints.length * 4 + padding :=
    toNat_intsSize (by omega)
  unfold finalizePacketD
  simp only [ensure_of hexpects, ok_bind, hlength, hsize, hpadding, List.set_cons_succ,
    List.set_cons_zero, hmore, frame, hwords]
  have hwhole : bufferBytes (a :: UInt32.ofNat (ints.length * 4 + padding) :: ints ++ more) =
      leBytes 4 a.toNat ++ (leBytes 4 (ints.length * 4 + padding) ++
        (bufferBytes ints ++ bufferBytes more)) := by
    simp only [List.cons_append, bufferBytes_cons, bufferBytes_append, hbytes]
  have hcut : (bufferBytes ints ++ bufferBytes more).take (ints.length * 4 + padding) =
      bufferBytes ints ++ (bufferBytes more).take padding := by
    rw [List.take_append, length_bufferBytes, List.take_of_length_le (by simp; omega),
      Nat.mul_comm 4, Nat.add_sub_cancel_left]
  rw [subspan_of (by simp; omega), hwhole, List.drop_left' (length_leBytes 4 _), List.take_append,
    length_leBytes, Nat.add_sub_cancel_left, hcut, List.take_of_length_le (by simp)]

/-! ## What is read -/

theorem framed_bufferBytes_iff {tail : List UInt8} (hpos : 0 < ints.length)
    (htail : tail.length = if p = .versionD then (random &&& 0x0F).toNat else 0) :
    p.Framed (bufferBytes ints ++ tail) ↔ p.Fits random (a :: b :: ints) := by
  cases p <;> simp [Framed, Fits, htail, kPacketSizeMax] <;> omega

variable {payload packet more : List UInt8}

theorem partly_known {head : ℕ} (h : p.Delimited packet head) {bytes rest : List UInt8}
    (hbytes : packet = bytes ++ rest) :
    p.readPacketLength bytes = kUnknownSize ∨ p.readPacketLength bytes = packet.length := by
  have hwhole : packet ++ [] = bytes ++ rest := by rw [List.append_nil, hbytes]
  by_cases hhead : bytes.length < head
  · exact .inl (h.unknown hwhole hhead)
  · exact .inr (h.known hwhole (not_lt.mp hhead))

theorem sizeLength_append (hpacket : packet ≠ []) (more : List UInt8) :
    p.sizeLength (packet ++ more) = p.sizeLength packet := by
  obtain ⟨b, packet, rfl⟩ := List.exists_cons_of_ne_nil hpacket
  cases p <;> rfl

/-- What follows on the stream does not matter. -/
theorem readPacketLength_append (h : p.Framed payload) (more : List UInt8) :
    p.readPacketLength (p.frame payload ++ more) = (p.frame payload).length := by
  obtain ⟨head, hhead⟩ := exists_delimited h
  have hwhole : p.frame payload ++ more = (p.frame payload ++ more) ++ [] := by simp
  refine hhead.known hwhole ?_
  rw [List.length_append]
  exact Nat.le_add_right_of_le hhead.le_length

theorem readPacket_append (h : p.Framed payload) (more : List UInt8) :
    p.readPacket (p.frame payload ++ more) = some payload := by
  obtain ⟨head, hhead⟩ := exists_delimited h
  have hframe : p.frame payload ≠ [] :=
    List.ne_nil_of_length_pos (lt_of_lt_of_le hhead.pos hhead.le_length)
  have hdrop := drop_sizeLength h
  have hlength := congrArg List.length hdrop
  rw [List.length_drop] at hlength
  have hpos : 0 < payload.length := by cases p <;> simp only [Framed] at h <;> omega
  have hunknown : (-1 : ℤ) = kUnknownSize := rfl
  have hinvalid : (-2 : ℤ) = kInvalidSize := rfl
  unfold readPacket
  dsimp only
  rw [readPacketLength_append h, sizeLength_append hframe,
    if_pos ⟨by omega, by omega, by simp⟩, List.drop_append_of_le_length (by omega), hdrop,
    Int.toNat_natCast, hlength, List.take_left]

theorem readBack_frame {tail : List UInt8} (h : p.Framed (payload ++ tail))
    (htail : tail.length ≤ 15) (hnil : p ≠ .versionD → tail = []) :
    p.ReadBack payload (p.frame (payload ++ tail)) tail where
  tail_le := htail
  tail_eq := hnil
  size := readPacketLength_append h
  read := readPacket_append h
  partly := by
    obtain ⟨head, hhead⟩ := exists_delimited h
    exact fun _ _ => partly_known hhead

/-- Three bytes have no room for so many words. -/
theorem readPacketLength₀_overflow (h : payload.length / 4 = 2 ^ 24) :
    readPacketLength₀ (version0.frame payload) = kInvalidSize := by
  have hframe : version0.frame payload = 0x7F :: 0 :: 0 :: 0 :: payload := by
    simp [frame, h, leBytes]
  rw [hframe, readPacketLength₀, if_neg (by simp)]
  simp only [List.getD_cons_zero, List.getD_cons_succ]
  rw [if_pos (by decide), if_neg (by simp)]
  rfl

theorem readPacketLengthD_overflow (h : kPacketSizeMax ≤ payload.length + 4)
    (hlt : payload.length + 4 < 2 ^ 32) :
    readPacketLengthD (versionD.frame payload) = kInvalidSize := by
  have hmax : kPacketSizeMax = 2 ^ 26 := rfl
  have hvalue : (UInt32.ofNat (leNat ((versionD.frame payload).take 4)) + 4).toNat =
      payload.length + 4 := by
    rw [frame, List.take_left' (length_leBytes 4 _), leNat_leBytes_of_lt (by omega),
      UInt32.toNat_add, UInt32.toNat_ofNat']
    simp
    omega
  have hrange : ¬(UInt32.ofNat (leNat ((versionD.frame payload).take 4)) + 4 <
      UInt32.ofNat kPacketSizeMax) := by
    rw [UInt32.lt_iff_toNat_lt, hvalue, hmax, toNat_intsSize (by decide)]
    omega
  rw [readPacketLengthD, if_neg (by simp [frame])]
  exact if_neg fun h => hrange h.2

/-! ## Exactly when -/

theorem not_readBack_of_invalid {tail : List UInt8}
    (h : p.readPacketLength packet = kInvalidSize) : ¬p.ReadBack payload packet tail := by
  intro hread
  have hsize := hread.size []
  rw [List.append_nil, h] at hsize
  have hinvalid : kInvalidSize = (-2 : ℤ) := rfl
  omega

/-- Every buffer that is let through is framed, with the tail of the random size. -/
theorem finalizePacket_eq (p : Protocol) (random : UInt32) (next : ℕ → UInt32) (a b : UInt32)
    (hpos : 0 < ints.length) (hlt : ints.length + 2 < 0x1000003) :
    ∃ tail : List UInt8, tail.length = (if p = .versionD then (random &&& 0x0F).toNat else 0) ∧
      p.finalizePacket random next (a :: b :: ints) = .ok (p.frame (bufferBytes ints ++ tail)) := by
  cases p with
  | version0 | version1 =>
    refine ⟨[], rfl, ?_⟩
    rw [List.append_nil]
    exact finalizePacket₀_eq hpos hlt
  | versionD => exact finalizePacketD_eq hpos hlt

theorem readPacketLength_of_not_fits {tail : List UInt8} (hpos : 0 < ints.length)
    (hlt : ints.length + 2 < 0x1000003)
    (htail : tail.length = if p = .versionD then (random &&& 0x0F).toNat else 0)
    (hfits : ¬p.Fits random (a :: b :: ints)) :
    p.readPacketLength (p.frame (bufferBytes ints ++ tail)) = kInvalidSize := by
  have hlength : (a :: b :: ints).length - 2 = ints.length := by simp
  have hmax : kPacketSizeMax = 2 ^ 26 := rfl
  have hle : (random &&& 0x0F).toNat < 2 ^ 4 := by
    rw [UInt32.toNat_and]
    exact Nat.and_lt_two_pow _ (by decide)
  cases p with
  | version0 | version1 =>
    rw [Fits, hlength] at hfits
    refine readPacketLength₀_overflow ?_
    rw [List.length_append, length_bufferBytes, htail, if_neg (by decide)]
    omega
  | versionD =>
    rw [if_pos rfl] at htail
    rw [Fits, hlength] at hfits
    refine readPacketLengthD_overflow ?_ ?_ <;>
    · rw [List.length_append, length_bufferBytes, htail]
      omega

/-- A packet is read back exactly when the number of ints fits in its three bytes, or the size with
the random tail is below the limit of the reading side. -/
theorem finalizePacket_readBack_iff (p : Protocol) (random : UInt32) (next : ℕ → UInt32)
    (buffer : List UInt32) (hexpects : 2 < buffer.length ∧ buffer.length < 0x1000003) :
    (∃ packet tail, p.finalizePacket random next buffer = .ok packet ∧
        p.ReadBack (bufferBytes (buffer.drop 2)) packet tail) ↔ p.Fits random buffer := by
  obtain ⟨a, b, ints, rfl⟩ : ∃ a b ints, buffer = a :: b :: ints := by
    cases buffer with
    | nil => exact absurd hexpects.1 (by simp)
    | cons a buffer =>
      cases buffer with
      | nil => exact absurd hexpects.1 (by simp)
      | cons b ints => exact ⟨a, b, ints, rfl⟩
  simp only [List.length_cons] at hexpects
  have hpos : 0 < ints.length := by omega
  obtain ⟨tail, htail, hpacket⟩ := finalizePacket_eq p random next a b hpos (by omega)
  constructor
  · rintro ⟨packet, tail', hpacket', hread⟩
    by_contra hfits
    obtain rfl := Except.ok.inj (hpacket.symm.trans hpacket')
    exact not_readBack_of_invalid
      (readPacketLength_of_not_fits hpos (by omega) htail hfits) hread
  · intro hfits
    refine ⟨_, tail, hpacket, ?_⟩
    refine readBack_frame ((framed_bufferBytes_iff hpos htail).mpr hfits) ?_ fun hne => ?_
    · have hle := Nat.and_lt_two_pow (n := 4) random.toNat (y := 0x0F) (by decide)
      have hand : (random &&& 0x0F).toNat = random.toNat &&& 0x0F := UInt32.toNat_and _ _
      split at htail <;> omega
    · rw [if_neg hne] at htail
      exact List.eq_nil_of_length_eq_zero htail

theorem finalizePacket_readBack_iff_three :
    (∃ packet tail, versionD.finalizePacket 5 (fun _ => 7) [0, 0, 9] = .ok packet ∧
        versionD.ReadBack (bufferBytes [9]) packet tail) ↔ versionD.Fits 5 [0, 0, 9] :=
  finalizePacket_readBack_iff versionD 5 (fun _ => 7) [0, 0, 9] (by decide)

/-- The largest buffer that is let through has one int too many for three bytes. -/
theorem finalizePacket₀_overflow :
    2 < (List.replicate 0x1000002 (0 : UInt32)).length ∧
      (List.replicate 0x1000002 (0 : UInt32)).length < 0x1000003 ∧
      ¬∃ packet tail, version0.finalizePacket 0 (fun _ => 0) (List.replicate 0x1000002 0) =
        .ok packet ∧ version0.ReadBack (bufferBytes (List.replicate 0x1000000 0)) packet tail := by
  have hlength : (List.replicate 0x1000000 (0 : UInt32)).length = 0x1000000 := List.length_replicate
  have hsplit : List.replicate 0x1000002 (0 : UInt32) = 0 :: 0 :: List.replicate 0x1000000 0 := rfl
  refine ⟨by rw [List.length_replicate]; omega, by rw [List.length_replicate]; omega, ?_⟩
  rintro ⟨packet, tail, hpacket, hread⟩
  rw [hsplit] at hpacket
  obtain rfl := Except.ok.inj ((finalizePacket₀_eq (by omega) (by omega)).symm.trans hpacket)
  have hinvalid : version0.readPacketLength
      (version0.frame (bufferBytes (List.replicate 0x1000000 0))) = kInvalidSize :=
    readPacketLength₀_overflow (by rw [length_bufferBytes, hlength]; rfl)
  exact not_readBack_of_invalid hinvalid hread

end Protocol

end Bettergram.Mtproto
