import Bettergram.Storage.SparseIdsList
import Mathlib.Algebra.Group.Int.Defs
import Mathlib.Algebra.Group.Nat.Defs
import Mathlib.Data.Int.Notation
import Mathlib.Data.Nat.Notation
import Mathlib.Order.Nat
import Mathlib.Data.List.Nodup
import Mathlib.Tactic.Linarith

/-! # Peers and messages

The id of a peer has its kind above the 32 bits of the bare id.
-/

namespace Bettergram.Data

abbrev PeerId := ℕ
abbrev BareId := Int32

def PeerIdMask : PeerId := 0xFFFFFFFF
def PeerIdTypeMask : PeerId := 0x300000000
def PeerIdChatShift : PeerId := 0x100000000
def PeerIdChannelShift : PeerId := 0x200000000

def peerIsChannel (id : PeerId) : Bool := id &&& PeerIdTypeMask = PeerIdChannelShift

def peerFromChat (chat : BareId) : PeerId := PeerIdChatShift ||| chat.toUInt32.toNat

def peerFromChannel (channel : BareId) : PeerId := PeerIdChannelShift ||| channel.toUInt32.toNat

def peerToBareInt (id : PeerId) : BareId := (UInt32.ofNat (id &&& PeerIdMask)).toInt32

/-- The channel is zero in chats that are none. -/
structure FullMsgId where
  channel : BareId := 0
  msg : ℤ := 0
  deriving DecidableEq

/-! ## Bare ids -/

theorem shift_or (kind : ℕ) (bare : BareId) :
    2 ^ 32 * kind ||| bare.toUInt32.toNat = 2 ^ 32 * kind + bare.toUInt32.toNat :=
  (Nat.two_pow_add_eq_or_of_lt bare.toUInt32.toNat_lt kind).symm

theorem and_typeMask (kind : ℕ) (bare : BareId) :
    (2 ^ 32 * kind + bare.toUInt32.toNat) &&& PeerIdTypeMask = 2 ^ 32 * (kind &&& 3) := by
  have hbare := bare.toUInt32.toNat_lt
  have hmask : PeerIdTypeMask = 2 ^ 32 * 3 + 0 := rfl
  apply Nat.eq_of_testBit_eq
  intro i
  rw [Nat.testBit_and, Nat.testBit_two_pow_mul_add _ hbare, hmask,
    Nat.testBit_two_pow_mul_add _ (Nat.two_pow_pos 32), Nat.testBit_two_pow_mul]
  by_cases hi : i < 32
  · simp [hi, Nat.not_le.mpr hi]
  · simp [hi, Nat.not_lt.mp hi, Nat.testBit_and]

@[simp] theorem peerIsChannel_peerFromChannel (channel : BareId) :
    peerIsChannel (peerFromChannel channel) = true := by
  have hshift : PeerIdChannelShift = 2 ^ 32 * 2 := rfl
  rw [peerIsChannel, peerFromChannel, hshift, shift_or, and_typeMask]
  rfl

@[simp] theorem peerIsChannel_peerFromChat (chat : BareId) :
    peerIsChannel (peerFromChat chat) = false := by
  have hshift : PeerIdChatShift = 2 ^ 32 * 1 := rfl
  rw [peerIsChannel, peerFromChat, hshift, shift_or, and_typeMask]
  rfl

@[simp] theorem peerToBareInt_peerFromChannel (channel : BareId) :
    peerToBareInt (peerFromChannel channel) = channel := by
  have hlt := channel.toUInt32.toNat_lt
  have hshift : PeerIdChannelShift = 2 ^ 32 * 2 := rfl
  have hmask : PeerIdMask = 2 ^ 32 - 1 := rfl
  rw [peerToBareInt, peerFromChannel, hshift, shift_or, hmask, Nat.and_two_pow_sub_one_eq_mod,
    Nat.mul_add_mod, Nat.mod_eq_of_lt hlt, UInt32.ofNat_toNat, Int32.toInt32_toUInt32]

theorem peerFromChannel_inj {a b : BareId} (h : peerFromChannel a = peerFromChannel b) : a = b := by
  rw [← peerToBareInt_peerFromChannel a, h, peerToBareInt_peerFromChannel]

end Bettergram.Data

/-! ## Merged slices of a history

The history of a channel may begin with the messages of the chat it was made from. A slice of it
has a part of the channel's ids and a part of the chat's, and either of them may stand alone.
-/

namespace Bettergram.Data
open Storage

/-- The ids are a `flat_set`: sorted, each once. -/
structure SparseIdsSlice where
  ids : List MsgId := []
  fullCount : Option ℤ := none
  skippedBefore : Option ℤ := none
  skippedAfter : Option ℤ := none
  sorted : ids.Pairwise (· < ·) := by simp

namespace SparseIdsSlice

def size (s : SparseIdsSlice) : ℤ := s.ids.length

def indexOf (s : SparseIdsSlice) (msgId : MsgId) : Option ℤ :=
  if msgId ∈ s.ids then some (s.ids.idxOf msgId) else none

/-- `operator[]`; there is no result when `Expects` fails. -/
def get (s : SparseIdsSlice) (index : ℤ) : Option MsgId :=
  if 0 ≤ index ∧ index < s.size then s.ids[index.toNat]? else none

end SparseIdsSlice

def isServerMsgId (id : MsgId) : Bool := 0 < id && id < ServerMaxMsgId

structure SparseIdsMergedSlice where
  peerId : PeerId
  migratedPeerId : PeerId := 0
  universalId : MsgId
  part : SparseIdsSlice
  migrated : Option SparseIdsSlice

namespace SparseIdsMergedSlice

variable (s : SparseIdsMergedSlice)

def isFromSlice (peerId : PeerId) (fullId : FullMsgId) : Bool :=
  if peerIsChannel peerId then peerId = peerFromChannel fullId.channel else fullId.channel = 0

def computeId (peerId : PeerId) (msgId : MsgId) : FullMsgId :=
  ⟨if peerIsChannel peerId then peerToBareInt peerId else 0, msgId⟩

def add (a b : Option ℤ) : Option ℤ := a.bind fun a => b.map fun b => a + b

def isFromPart (fullId : FullMsgId) : Bool := isFromSlice s.peerId fullId

def isFromMigrated (fullId : FullMsgId) : Bool :=
  if s.migrated.isSome then isFromSlice s.migratedPeerId fullId else false

def isolatedInPart : Bool :=
  isServerMsgId s.universalId && (s.migrated.isNone || s.part.skippedBefore ≠ some 0)

/-- The universal id is negative only where there is a migrated part, which is read here. -/
def isolatedInMigrated : Bool :=
  isServerMsgId (ServerMaxMsgId + s.universalId) &&
    s.migrated.bind SparseIdsSlice.skippedAfter ≠ some 0

/-- The migrated part where the source reads it without a check. -/
def migratedPart : SparseIdsSlice := s.migrated.getD {}

def migratedSize : ℤ := if s.isolatedInPart then 0 else s.migratedPart.size

def fullCount : Option ℤ :=
  add s.part.fullCount (if s.migrated.isSome then s.migratedPart.fullCount else some 0)

def skippedBefore : Option ℤ :=
  add (if s.isolatedInMigrated then some 0 else s.part.skippedBefore)
    (if s.migrated.isSome then
      if s.isolatedInPart then s.migratedPart.fullCount else s.migratedPart.skippedBefore
    else some 0)

def skippedAfter : Option ℤ :=
  add (if s.isolatedInMigrated then s.part.fullCount else s.part.skippedAfter)
    (if s.isolatedInPart then some 0 else s.migratedPart.skippedAfter)

def indexOf (fullId : FullMsgId) : Option ℤ :=
  if s.isFromPart fullId then (s.part.indexOf fullId.msg).map (· + s.migratedSize)
  else if s.isolatedInPart then none
  else if s.isFromMigrated fullId then s.migratedPart.indexOf fullId.msg
  else none

def size : ℤ :=
  (if s.isolatedInPart then 0 else s.migratedSize) +
    if s.isolatedInMigrated then 0 else s.part.size

/-- `operator[]`; there is no result when `Expects` fails. -/
def get (index : ℤ) : Option FullMsgId :=
  if 0 ≤ index ∧ index < s.size then
    let size := s.migratedSize
    if size ≠ 0 ∧ index < size then
      (s.migratedPart.get index).map (computeId s.migratedPeerId)
    else (s.part.get (index - size)).map (computeId s.peerId)
  else none

end SparseIdsMergedSlice

end Bettergram.Data

/-! ## Merged slices are consistent

The ids of a merged slice are those of the migrated part, if they belong to it, followed by those
of the channel. A slice that is isolated in the migrated part still finds the channel's ids.
-/

namespace Bettergram.Data

namespace SparseIdsSlice

variable {s : SparseIdsSlice} {id : ℤ} {i : ℤ}

theorem get_bounds (h : s.get i = some id) : 0 ≤ i ∧ i < s.size := by
  unfold get at h
  split at h
  · rename_i hi
    exact hi
  · cases h

theorem get_natCast (n : ℕ) : s.get n = s.ids[n]? := by
  unfold get size
  split
  · rw [Int.toNat_natCast]
  · rename_i hn
    rw [List.getElem?_eq_none]
    omega

/-- An id is found at the place where it is read. -/
theorem indexOf_iff : s.indexOf id = some i ↔ s.get i = some id := by
  have hnodup : s.ids.Nodup := s.sorted.imp fun h => ne_of_lt h
  constructor
  · intro h
    unfold indexOf at h
    split at h
    · rename_i hmem
      obtain rfl := Option.some.inj h
      rw [get_natCast, List.getElem?_eq_getElem (List.idxOf_lt_length_iff.mpr hmem),
        List.getElem_idxOf]
    · cases h
  · intro h
    obtain ⟨n, rfl⟩ := Int.eq_ofNat_of_zero_le (get_bounds h).1
    rw [get_natCast] at h
    obtain ⟨hn, rfl⟩ := List.getElem?_eq_some_iff.mp h
    rw [indexOf, if_pos (List.getElem_mem hn), hnodup.idxOf_getElem n hn]

/-- The numbers of a slice add up. -/
def AddsUp (s : SparseIdsSlice) : Prop :=
  ∀ before after full, s.skippedBefore = some before → s.skippedAfter = some after →
    s.fullCount = some full → before + s.size + after = full

end SparseIdsSlice

namespace SparseIdsMergedSlice

variable {s : SparseIdsMergedSlice} {channel : BareId}

/-- A slice of a channel, perhaps with the chat that it was made from. -/
structure OfChannel (s : SparseIdsMergedSlice) (channel : BareId) : Prop where
  channel_ne : channel ≠ 0
  peer : s.peerId = peerFromChannel channel
  chat : s.migrated.isSome → ∃ chat, s.migratedPeerId = peerFromChat chat
  universalId : isServerMsgId s.universalId ∨ (s.migrated.isSome ∧ s.universalId < 0)
  part : s.part.AddsUp
  migrated : s.migratedPart.AddsUp

/-- `indexOf` is the inverse of `operator[]`, and the numbers add up. -/
structure Consistent (s : SparseIdsMergedSlice) : Prop where
  index : ∀ id i, s.indexOf id = some i ↔ 0 ≤ i ∧ i < s.size ∧ s.get i = some id
  counts : ∀ before after full, s.skippedBefore = some before → s.skippedAfter = some after →
    s.fullCount = some full → before + s.size + after = full

theorem OfChannel.isFromPart (h : s.OfChannel channel) (id : FullMsgId) :
    s.isFromPart id = true ↔ id.channel = channel := by
  rw [SparseIdsMergedSlice.isFromPart, isFromSlice, h.peer,
    if_pos (peerIsChannel_peerFromChannel channel), decide_eq_true_iff]
  exact ⟨fun heq => (peerFromChannel_inj heq).symm, fun heq => by rw [heq]⟩

theorem OfChannel.isFromMigrated (h : s.OfChannel channel) (hsome : s.migrated.isSome)
    (id : FullMsgId) : s.isFromMigrated id = true ↔ id.channel = 0 := by
  obtain ⟨chat, hchat⟩ := h.chat hsome
  rw [SparseIdsMergedSlice.isFromMigrated, if_pos hsome, isFromSlice, hchat,
    peerIsChannel_peerFromChat, if_neg Bool.false_ne_true, decide_eq_true_iff]

theorem OfChannel.computeId_peer (h : s.OfChannel channel) (msg : ℤ) :
    computeId s.peerId msg = ⟨channel, msg⟩ := by
  simp [computeId, h.peer]

theorem OfChannel.computeId_migrated (h : s.OfChannel channel) (hsome : s.migrated.isSome)
    (msg : ℤ) : computeId s.migratedPeerId msg = ⟨0, msg⟩ := by
  obtain ⟨chat, hchat⟩ := h.chat hsome
  simp [computeId, hchat]

/-- Without a migrated part the slice is isolated in the channel. -/
theorem OfChannel.isSome_of_not_isolated (h : s.OfChannel channel)
    (hnot : s.isolatedInPart = false) : s.migrated.isSome := by
  rcases h.universalId with hserver | ⟨hsome, -⟩
  · rw [isolatedInPart, hserver, Bool.true_and, Bool.or_eq_false_iff] at hnot
    simpa using hnot.1
  · exact hsome

theorem isServerMsgId_iff (id : ℤ) : isServerMsgId id = true ↔ 0 < id ∧ id < 0x3FFFFFFF := by
  rw [isServerMsgId, Bool.and_eq_true, decide_eq_true_iff, decide_eq_true_iff]
  rfl

/-- A slice is isolated in one of its parts only. -/
theorem not_isolated_twice (s : SparseIdsMergedSlice) (hmigrated : s.isolatedInMigrated = true) :
    s.isolatedInPart = false := by
  rw [isolatedInMigrated, Bool.and_eq_true, isServerMsgId_iff] at hmigrated
  have hnot : isServerMsgId s.universalId = false := by
    rw [← Bool.not_eq_true, isServerMsgId_iff]
    have := hmigrated.1
    unfold Storage.ServerMaxMsgId at this
    omega
  rw [isolatedInPart, hnot, Bool.false_and]

theorem migratedSize_nonneg (s : SparseIdsMergedSlice) : 0 ≤ s.migratedSize := by
  unfold migratedSize SparseIdsSlice.size
  split <;> omega

/-- The part that takes part has its whole size. -/
def Shown (s : SparseIdsMergedSlice) : Prop := s.isolatedInMigrated = true → s.part.ids = []

theorem size_eq (s : SparseIdsMergedSlice) :
    s.size = s.migratedSize + if s.isolatedInMigrated then 0 else s.part.size := by
  unfold size migratedSize
  split <;> rfl

theorem Shown.size_eq (h : s.Shown) : s.size = s.migratedSize + s.part.size := by
  rw [SparseIdsMergedSlice.size_eq]
  split
  · rename_i hisolated
    rw [SparseIdsSlice.size, h hisolated]
    rfl
  · rfl

theorem map_computeId_iff {peerId : PeerId} {found : Option ℤ} {id : FullMsgId} {bare : BareId}
    (hpeer : ∀ msg, computeId peerId msg = ⟨bare, msg⟩) :
    found.map (computeId peerId) = some id ↔ id.channel = bare ∧ found = some id.msg := by
  rw [Option.map_eq_some_iff]
  constructor
  · rintro ⟨msg, rfl, rfl⟩
    rw [hpeer]
    exact ⟨rfl, rfl⟩
  · rintro ⟨rfl, hfound⟩
    exact ⟨id.msg, hfound, hpeer id.msg⟩

/-- What is read at an index: an id of the chat, or behind those one of the channel. -/
theorem OfChannel.get_iff (h : s.OfChannel channel) (i : ℤ) (id : FullMsgId) :
    s.get i = some id ↔ 0 ≤ i ∧ i < s.size ∧
      ((i < s.migratedSize ∧ s.isolatedInPart = false ∧ id.channel = 0 ∧
          s.migratedPart.get i = some id.msg) ∨
        (s.migratedSize ≤ i ∧ id.channel = channel ∧
          s.part.get (i - s.migratedSize) = some id.msg)) := by
  unfold get
  split
  · rename_i hi
    rw [and_iff_right hi.1, and_iff_right hi.2]
    dsimp only
    split
    · rename_i hfirst
      have hisolated : s.isolatedInPart = false := by
        rw [← Bool.not_eq_true]
        intro hisolated
        exact hfirst.1 (if_pos hisolated)
      rw [map_computeId_iff (h.computeId_migrated (h.isSome_of_not_isolated hisolated))]
      constructor
      · intro hid
        exact .inl ⟨hfirst.2, hisolated, hid⟩
      · rintro (⟨-, -, hid⟩ | ⟨hle, -⟩)
        · exact hid
        · exact absurd hfirst.2 (not_lt.mpr hle)
    · rename_i hsecond
      have hle : s.migratedSize ≤ i := by
        by_contra hlt
        exact hsecond ⟨by have := hi.1; omega, not_le.mp hlt⟩
      rw [map_computeId_iff h.computeId_peer]
      constructor
      · intro hid
        exact .inr ⟨hle, hid⟩
      · rintro (⟨hlt, -⟩ | ⟨-, hid⟩)
        · exact absurd hlt (not_lt.mpr hle)
        · exact hid
  · rename_i hi
    constructor
    · intro hnone
      cases hnone
    · rintro ⟨h0, hlt, -⟩
      exact absurd ⟨h0, hlt⟩ hi

theorem OfChannel.indexOf_of_channel (h : s.OfChannel channel) {id : FullMsgId}
    (hid : id.channel = channel) (i : ℤ) :
    s.indexOf id = some i ↔ s.part.get (i - s.migratedSize) = some id.msg := by
  rw [indexOf, if_pos ((h.isFromPart id).mpr hid), Option.map_eq_some_iff]
  constructor
  · rintro ⟨j, hj, rfl⟩
    rw [Int.add_sub_cancel]
    exact SparseIdsSlice.indexOf_iff.mp hj
  · intro hget
    exact ⟨i - s.migratedSize, SparseIdsSlice.indexOf_iff.mpr hget, Int.sub_add_cancel _ _⟩

theorem OfChannel.indexOf_of_other (h : s.OfChannel channel) {id : FullMsgId}
    (hid : id.channel ≠ channel) (i : ℤ) :
    s.indexOf id = some i ↔
      s.isolatedInPart = false ∧ id.channel = 0 ∧ s.migratedPart.get i = some id.msg := by
  rw [indexOf, if_neg fun hpart => hid ((h.isFromPart id).mp hpart)]
  cases hisolated : s.isolatedInPart with
  | true => simp
  | false =>
    have hsome := h.isSome_of_not_isolated hisolated
    rw [if_neg Bool.false_ne_true]
    by_cases hzero : id.channel = 0
    · rw [if_pos ((h.isFromMigrated hsome id).mpr hzero), SparseIdsSlice.indexOf_iff]
      simp [hzero]
    · rw [if_neg fun hfrom => hzero ((h.isFromMigrated hsome id).mp hfrom)]
      simp [hzero]

theorem OfChannel.indexOf_iff_get (h : s.OfChannel channel) (hshown : s.Shown) (id : FullMsgId)
    (i : ℤ) : s.indexOf id = some i ↔ 0 ≤ i ∧ i < s.size ∧ s.get i = some id := by
  have hsize := hshown.size_eq
  have hnonneg := s.migratedSize_nonneg
  rw [h.get_iff]
  by_cases hid : id.channel = channel
  · rw [h.indexOf_of_channel hid]
    constructor
    · intro hget
      have hbounds := SparseIdsSlice.get_bounds hget
      have hi : 0 ≤ i ∧ i < s.size := by omega
      exact ⟨hi.1, hi.2, hi.1, hi.2, .inr ⟨by omega, hid, hget⟩⟩
    · rintro ⟨-, -, -, -, ⟨-, -, hzero, -⟩ | ⟨-, -, hget⟩⟩
      · exact absurd (hid.symm.trans hzero) h.channel_ne
      · exact hget
  · rw [h.indexOf_of_other hid]
    constructor
    · rintro ⟨hisolated, hzero, hget⟩
      have hbounds := SparseIdsSlice.get_bounds hget
      have hmigrated : s.migratedSize = s.migratedPart.size := by
        rw [migratedSize, hisolated, if_neg Bool.false_ne_true]
      have hpart : 0 ≤ s.part.size := Int.natCast_nonneg _
      have hi : i < s.migratedSize ∧ i < s.size := by omega
      exact ⟨hbounds.1, hi.2, hbounds.1, hi.2, .inl ⟨hi.1, hisolated, hzero, hget⟩⟩
    · rintro ⟨-, -, -, -, ⟨-, hisolated, hzero, hget⟩ | ⟨-, hchannel, -⟩⟩
      · exact ⟨hisolated, hzero, hget⟩
      · exact absurd hchannel hid

/-! ## Counts -/

theorem add_eq_some {a b : Option ℤ} {n : ℤ} :
    add a b = some n ↔ ∃ x y, a = some x ∧ b = some y ∧ x + y = n := by
  simp [add, Option.bind_eq_some_iff, Option.map_eq_some_iff]

/-- Isolated or joined, the numbers add up. -/
theorem OfChannel.counts (h : s.OfChannel channel) {before after full : ℤ}
    (hbefore : s.skippedBefore = some before) (hafter : s.skippedAfter = some after)
    (hfull : s.fullCount = some full) : before + s.size + after = full := by
  have hpart := h.part
  have hmigrated := h.migrated
  obtain ⟨b₁, b₂, hb₁, hb₂, rfl⟩ := add_eq_some.mp hbefore
  obtain ⟨a₁, a₂, ha₁, ha₂, rfl⟩ := add_eq_some.mp hafter
  obtain ⟨f₁, f₂, hf₁, hf₂, rfl⟩ := add_eq_some.mp hfull
  rw [size_eq, migratedSize]
  by_cases hin : s.isolatedInMigrated = true
  · have hnot := not_isolated_twice s hin
    have hsome := h.isSome_of_not_isolated hnot
    simp only [hin, hnot, hsome, if_true, Bool.false_eq_true, if_false] at hb₁ hb₂ ha₁ ha₂ hf₂ ⊢
    obtain rfl := Option.some.inj hb₁
    obtain rfl := Option.some.inj (hf₁.symm.trans ha₁)
    have hsum := hmigrated _ _ _ hb₂ ha₂ hf₂
    omega
  · rw [Bool.not_eq_true] at hin
    by_cases hisolated : s.isolatedInPart = true
    · simp only [hin, hisolated, if_true, Bool.false_eq_true, if_false] at hb₁ hb₂ ha₁ ha₂ hf₂ ⊢
      obtain rfl := Option.some.inj ha₂
      obtain rfl := Option.some.inj (hb₂.symm.trans hf₂)
      have hsum := hpart _ _ _ hb₁ ha₁ hf₁
      omega
    · rw [Bool.not_eq_true] at hisolated
      have hsome := h.isSome_of_not_isolated hisolated
      simp only [hin, hisolated, hsome, if_true, Bool.false_eq_true, if_false]
        at hb₁ hb₂ ha₁ ha₂ hf₂ ⊢
      have hsum := hpart _ _ _ hb₁ ha₁ hf₁
      have hsum' := hmigrated _ _ _ hb₂ ha₂ hf₂
      omega

/-! ## Ids of the channel beside an isolated chat -/

/-- The first id of the channel has an index, and nothing is read there. -/
theorem OfChannel.not_consistent (h : s.OfChannel channel) (hisolated : s.isolatedInMigrated = true)
    (hids : s.part.ids ≠ []) : ¬s.Consistent := by
  intro hconsistent
  obtain ⟨first, rest, hcons⟩ := List.exists_cons_of_ne_nil hids
  have hget : s.part.get 0 = some first := by
    rw [← Int.natCast_zero, SparseIdsSlice.get_natCast, hcons]
    rfl
  have hindex : s.indexOf ⟨channel, first⟩ = some s.migratedSize := by
    rw [h.indexOf_of_channel rfl, Int.sub_self, hget]
  have hlt := ((hconsistent.index _ _).mp hindex).2.1
  rw [size_eq, if_pos hisolated, Int.add_zero] at hlt
  exact lt_irrefl _ hlt

/-- A merged slice is consistent unless it is isolated in the chat while the channel has ids. -/
theorem consistent_iff (h : s.OfChannel channel) :
    s.Consistent ↔ (s.isolatedInMigrated = true → s.part.ids = []) := by
  constructor
  · intro hconsistent hisolated
    by_contra hids
    exact h.not_consistent hisolated hids hconsistent
  · intro hshown
    exact ⟨h.indexOf_iff_get hshown, fun _ _ _ => h.counts⟩

/-- The last messages of a chat, not all of them known, and the first ones of its channel. -/
def beforeChannel (skippedAfter : Option ℤ) (ids : List ℤ) (hids : ids.Pairwise (· < ·)) :
    SparseIdsMergedSlice where
  peerId := peerFromChannel 7
  migratedPeerId := peerFromChat 3
  universalId := 100 - Storage.ServerMaxMsgId
  part := { ids := ids, sorted := hids }
  migrated := some { ids := [90, 100], skippedAfter := skippedAfter }

theorem beforeChannel_ofChannel (skippedAfter : Option ℤ) (ids : List ℤ)
    (hids : ids.Pairwise (· < ·)) : (beforeChannel skippedAfter ids hids).OfChannel 7 where
  channel_ne := by decide
  peer := rfl
  chat _ := ⟨3, rfl⟩
  universalId := .inr ⟨rfl, (by decide : (100 : ℤ) - Storage.ServerMaxMsgId < 0)⟩
  part _ _ _ hbefore := by cases hbefore
  migrated _ _ _ hbefore := by cases hbefore

theorem consistent_iff_joined : (beforeChannel (some 0) [1, 2] (by decide)).Consistent :=
  (consistent_iff (beforeChannel_ofChannel (some 0) [1, 2] _)).mpr (by decide)

theorem isolated_not_consistent : ¬(beforeChannel none [1, 2] (by decide)).Consistent :=
  (beforeChannel_ofChannel none [1, 2] _).not_consistent (by decide) (by decide)

end SparseIdsMergedSlice

end Bettergram.Data
