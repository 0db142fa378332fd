import Mathlib.Data.Set.Insert
import Bettergram.Mtproto.RequestsAcked
import Bettergram.Mtproto.SessionEvents

/-! # Where the requests of a session are

A message id belongs to one request only, and a request is waiting to be sent
or was sent, but not both. The set of those that wait is passed beside the
session, so that they can be sent one by one before `toSend` is cleared.
-/

namespace Bettergram.Mtproto
open Foundation

/-- A call of the API that is complete. -/
structure IsCallRequest (d : SecureRequestData) : Prop where
  body : d.body ≠ []
  type : d.type ∉ mtpc_msgs_state_req :: SecureRequestData.serviceTypes
  length : 1 ≤ (d.messageLength >>> 2).toNat

namespace IsCallRequest

variable {d : SecureRequestData}

theorem needAck (h : IsCallRequest d) : d.needAck = true := by
  have htype := h.type
  rw [List.mem_cons, not_or] at htype
  simp [SecureRequestData.needAck, h.body, htype.2]

theorem isStateRequest (h : IsCallRequest d) : d.isStateRequest = false := by
  have htype := h.type
  rw [List.mem_cons, not_or] at htype
  simp [SecureRequestData.isStateRequest, h.body, htype.1]

end IsCallRequest

theorem isSentContainer_of_date {d : SecureRequestData} (h : 0 < d.msDate) :
    d.isSentContainer = false := by
  have hne : d.msDate ≠ 0 := by omega
  simp [SecureRequestData.isSentContainer, hne]

namespace SessionData

variable (clock : ℕ → MsgId)

/-- The clock gave the id. -/
def Given (msgId : MsgId) (s : SessionData) : Prop :=
  msgId ≠ 0 ∧ ∃ i < s.msgIdCalls, msgId = clock i

/-- A request with callbacks. -/
structure IsStoredCall (requestId : RequestId) (d : SecureRequestData) : Prop where
  isRequest : requestId ≠ 0 ∧ requestId ≠ noRequest
  call : IsCallRequest d
  seqNo : d.msgId ≠ 0 → d.seqNo &&& 1 = 1

/-- A request that awaits its answer is in one place; when it was sent it has a date. -/
structure Awaits (waiting : Set RequestRef) (s : SessionData) (requestId : RequestId)
    (ref : RequestRef) : Prop where
  stored : s.requestMap requestId = some ref
  hasCallbacks : s.hasCallbacks requestId = true
  place : ref ∈ waiting ∨ s.haveSent[(s.requests ref).msgId]? = some ref
  date : s.haveSent[(s.requests ref).msgId]? = some ref → 0 < (s.requests ref).msDate

/-- What holds between two steps, with the requests that await an answer. -/
structure Inv (awaiting : Awaiting) (waiting : Set RequestRef) (s : SessionData) : Prop where
  given : ∀ ref < s.nextRef,
    (s.requests ref).msgId = 0 ∨ s.Given clock (s.requests ref).msgId
  msgIds : ∀ ref < s.nextRef, ∀ ref' < s.nextRef, (s.requests ref).msgId ≠ 0 →
    (s.requests ref).msgId = (s.requests ref').msgId → ref = ref'
  requestIds : ∀ ref < s.nextRef, ∀ ref' < s.nextRef, (s.requests ref).requestId ≠ 0 →
    (s.requests ref).requestId = (s.requests ref').requestId → ref = ref'
  haveSent : ∀ (msgId : MsgId) (ref : RequestRef), s.haveSent[msgId]? = some ref →
    ref < s.nextRef ∧ (s.requests ref).msgId = msgId ∧ msgId ≠ 0
  waits : ∀ ref ∈ waiting, ref < s.nextRef
  apart : ∀ ref ∈ waiting, ∀ msgId : MsgId, s.haveSent[msgId]? ≠ some ref
  sent : ∀ (msgId : MsgId) (ref : RequestRef), s.haveSent[msgId]? = some ref →
    (s.requests ref).requestId ≠ 0 →
    ∀ lost : MsgId, s.toResend[lost]? ≠ some (s.requests ref).requestId
  toResend : ∀ (msgId : MsgId) (requestId : RequestId), s.toResend[msgId]? = some requestId →
    s.Given clock msgId ∧ (∃ ref < s.nextRef, (s.requests ref).requestId = requestId)
  lost : ∀ (msgId : MsgId) (requestId : RequestId), s.toResend[msgId]? = some requestId →
    requestId ≠ 0 → ∀ ref ∈ waiting, (s.requests ref).requestId = requestId →
      (s.requests ref).msgId = msgId
  unsent : ∀ (msgId : MsgId) (requestId : RequestId), s.toResend[msgId]? = some requestId →
    s.haveSent[msgId]? = none
  wereAcked : ∀ msgId ∈ s.wereAcked, msgId = 0 ∨ s.Given clock msgId
  ping : s.pingMsgId = 0 ∨ s.Given clock s.pingMsgId
  ofPing : ∀ ref < s.nextRef, (s.requests ref).msgId = s.pingMsgId → s.pingMsgId ≠ 0 →
    (s.requests ref).requestId = 0
  stored : ∀ requestId ref, s.requestMap requestId = some ref →
    ref < s.nextRef ∧ (s.requests ref).requestId = requestId ∧
      (s.hasCallbacks requestId → IsStoredCall requestId (s.requests ref))
  called : ∀ requestId, s.hasCallbacks requestId →
    ∃ ref < s.nextRef, (s.requests ref).requestId = requestId
  awaits : ∀ requestId ref, awaiting requestId = some ref → Awaits waiting s requestId ref

/-- The requests that wait to be sent. -/
def waitingRefs (s : SessionData) : Set RequestRef :=
  {ref | ∃ requestId : RequestId, s.toSend[requestId]? = some ref}

/-- What holds before and after each step. -/
structure Kept (awaiting : Awaiting) (s : SessionData) : Prop where
  inv : Inv clock awaiting s.waitingRefs s
  toSend : ∀ (requestId : RequestId) (ref : RequestRef), s.toSend[requestId]? = some ref →
    (s.requests ref).requestId = requestId

/-- The clock gave the id, and no request has it yet. -/
structure Unused (msgId : MsgId) (s : SessionData) : Prop where
  given : s.Given clock msgId
  unused : ∀ ref < s.nextRef, (s.requests ref).msgId ≠ msgId
  ping : s.pingMsgId ≠ msgId

/-- Nothing was sent with the id either. -/
structure Fresh (msgId : MsgId) (s : SessionData) : Prop extends Unused clock msgId s where
  toResend : s.toResend[msgId]? = none
  wereAcked : s.wereAcked[msgId]? = none

variable {clock} {awaiting : Awaiting} {waiting waiting' : Set RequestRef}
  {s t : SessionData} {ref : RequestRef} {msgId : MsgId} {requestId : RequestId}

theorem mem_waitingRefs {ref : RequestRef} :
    ref ∈ s.waitingRefs ↔ ∃ requestId : RequestId, s.toSend[requestId]? = some ref := Iff.rfl

/-! ## What goes away -/

/-- Only what awaits no answer may go. -/
structure Loses (clock : ℕ → MsgId) (awaiting : Awaiting) (waiting waiting' : Set RequestRef)
    (s t : SessionData) : Prop where
  requests : t.requests = s.requests
  nextRef : t.nextRef = s.nextRef
  pingMsgId : t.pingMsgId = s.pingMsgId
  msgIdCalls : t.msgIdCalls = s.msgIdCalls
  haveSent : ∀ {msgId : MsgId} {ref : RequestRef}, t.haveSent[msgId]? = some ref →
    s.haveSent[msgId]? = some ref
  toResend : ∀ {msgId : MsgId} {requestId : RequestId}, t.toResend[msgId]? = some requestId →
    s.toResend[msgId]? = some requestId
  waits : waiting' ⊆ waiting
  wereAcked : ∀ msgId ∈ t.wereAcked, msgId ∈ s.wereAcked ∨ msgId = 0 ∨ s.Given clock msgId
  stored : ∀ {requestId : RequestId} {ref : RequestRef}, t.requestMap requestId = some ref →
    s.requestMap requestId = some ref
  hasCallbacks : ∀ {requestId : RequestId}, t.hasCallbacks requestId →
    s.hasCallbacks requestId
  keeps : ∀ {requestId : RequestId} {ref : RequestRef}, awaiting requestId = some ref →
    (s.requestMap requestId = some ref → t.requestMap requestId = some ref) ∧
      (s.hasCallbacks requestId → t.hasCallbacks requestId)
  place : ∀ {requestId : RequestId} {ref : RequestRef}, awaiting requestId = some ref →
    (ref ∈ waiting → ref ∈ waiting') ∧
      ∀ msgId : MsgId, s.haveSent[msgId]? = some ref → t.haveSent[msgId]? = some ref

theorem Loses.refl (clock : ℕ → MsgId) (awaiting : Awaiting) (waiting : Set RequestRef)
    (s : SessionData) : Loses clock awaiting waiting waiting s s where
  requests := rfl
  nextRef := rfl
  pingMsgId := rfl
  msgIdCalls := rfl
  haveSent := id
  toResend := id
  waits := subset_rfl
  wereAcked := fun _ => .inl
  stored := id
  hasCallbacks := id
  keeps := fun _ => ⟨id, id⟩
  place := fun _ => ⟨id, fun _ => id⟩

theorem Inv.loses (h : Inv clock awaiting waiting s)
    (hl : Loses clock awaiting waiting waiting' s t) : Inv clock awaiting waiting' t := by
  obtain ⟨hrequests, hnextRef, hping, hcalls, hsent, hresend, hwaits, hacked, hstored, hcall,
    hkeeps, hplace⟩ := hl
  have hgiven : ∀ msgId, t.Given clock msgId ↔ s.Given clock msgId := by simp [Given, hcalls]
  refine ⟨?_, ?_, ?_, ?_, ?_, ?_, ?_, ?_, ?_, ?_, ?_, ?_, ?_, ?_, ?_, ?_⟩
  · simp only [hrequests, hnextRef, hgiven]
    exact h.given
  · rw [hrequests, hnextRef]
    exact h.msgIds
  · rw [hrequests, hnextRef]
    exact h.requestIds
  · rw [hrequests, hnextRef]
    exact fun msgId ref hm => h.haveSent msgId ref (hsent hm)
  · rw [hnextRef]
    exact fun ref hw => h.waits ref (hwaits hw)
  · exact fun ref hw msgId hm => h.apart ref (hwaits hw) msgId (hsent hm)
  · rw [hrequests]
    exact fun msgId ref hm hne lost hlost => h.sent msgId ref (hsent hm) hne lost (hresend hlost)
  · simp only [hrequests, hnextRef, hgiven]
    exact fun msgId k hk => h.toResend msgId k (hresend hk)
  · rw [hrequests]
    exact fun msgId k hk hne ref hw => h.lost msgId k (hresend hk) hne ref (hwaits hw)
  · intro msgId k hk
    by_contra hne
    obtain ⟨ref, hm⟩ := Option.ne_none_iff_exists'.mp hne
    exact absurd (h.unsent msgId k (hresend hk)) (by simp [hsent hm])
  · simp only [hgiven]
    exact fun msgId hm => (hacked msgId hm).elim (h.wereAcked msgId) id
  · simp only [hping, hgiven]
    exact h.ping
  · rw [hrequests, hnextRef, hping]
    exact h.ofPing
  · rw [hrequests, hnextRef]
    intro k ref hk
    obtain ⟨hlt, hreq, hstoredCall⟩ := h.stored k ref (hstored hk)
    exact ⟨hlt, hreq, fun hc => hstoredCall (hcall hc)⟩
  · rw [hrequests, hnextRef]
    exact fun k hk => h.called k (hcall hk)
  · intro k ref hk
    have ha := h.awaits k ref hk
    refine ⟨(hkeeps hk).1 ha.stored, (hkeeps hk).2 ha.hasCallbacks, ?_, ?_⟩ <;> rw [hrequests]
    · exact ha.place.imp (hplace hk).1 ((hplace hk).2 _)
    · exact fun hm => ha.date (hsent hm)

theorem Inv.notAwaited (h : Inv clock awaiting waiting s)
    (hnot : (s.requests ref).requestId = 0 ∨ ¬ IsCallRequest (s.requests ref))
    (requestId : RequestId) : awaiting requestId ≠ some ref := by
  intro hk
  have ha := h.awaits requestId ref hk
  obtain ⟨-, hreq, hcall⟩ := h.stored requestId ref ha.stored
  have hcall := hcall ha.hasCallbacks
  exact hnot.elim (fun hz => hcall.isRequest.1 (hreq.symm.trans hz)) (· hcall.call)

/-- Fewer requests await an answer. -/
theorem Inv.mono (h : Inv clock awaiting waiting s) {awaiting' : Awaiting}
    (hsub : ∀ requestId ref, awaiting' requestId = some ref → awaiting requestId = some ref) :
    Inv clock awaiting' waiting s :=
  { h with awaits := fun k ref hk => h.awaits k ref (hsub k ref hk) }

theorem Inv.answered (h : Inv clock awaiting waiting s) (requestId : RequestId) :
    Inv clock (Function.update awaiting requestId none) waiting s := by
  apply h.mono
  intro k ref hk
  rw [Function.update_apply] at hk
  split_ifs at hk
  exact hk

/-! ## What changes in the requests -/

/-- A request may change as long as it is still a call that is told from a container. -/
structure SameRequest (d d' : SecureRequestData) : Prop where
  call : IsCallRequest d → IsCallRequest d'
  seqNo : d.seqNo &&& 1 = 1 → d'.seqNo &&& 1 = 1

theorem SameRequest.refl (d : SecureRequestData) : SameRequest d d := ⟨id, id⟩

theorem Inv.of_requests (h : Inv clock awaiting waiting s)
    {requests : RequestRef → SecureRequestData}
    (hids : ∀ ref, (requests ref).msgId = (s.requests ref).msgId ∧
      (requests ref).requestId = (s.requests ref).requestId)
    (hsame : ∀ requestId ref, s.requestMap requestId = some ref → s.hasCallbacks requestId →
      SameRequest (s.requests ref) (requests ref))
    (hdate : ∀ requestId ref, awaiting requestId = some ref →
      s.haveSent[(s.requests ref).msgId]? = some ref →
        0 < (s.requests ref).msDate → 0 < (requests ref).msDate) :
    Inv clock awaiting waiting { s with requests } := by
  have hmsgId : ∀ ref, (requests ref).msgId = (s.requests ref).msgId := fun ref => (hids ref).1
  have hreq : ∀ ref, (requests ref).requestId = (s.requests ref).requestId :=
    fun ref => (hids ref).2
  refine ⟨?_, ?_, ?_, ?_, h.waits, h.apart, ?_, ?_, ?_, h.unsent, h.wereAcked, h.ping, ?_, ?_, ?_,
    ?_⟩
  · simp only [hmsgId]
    exact h.given
  · simp only [hmsgId]
    exact h.msgIds
  · simp only [hreq]
    exact h.requestIds
  · simp only [hmsgId]
    exact h.haveSent
  · simp only [hreq]
    exact h.sent
  · simp only [hreq]
    exact h.toResend
  · simp only [hmsgId, hreq]
    exact h.lost
  · simp only [hmsgId, hreq]
    exact h.ofPing
  · intro k ref hk
    obtain ⟨hlt, hreq', hcall⟩ := h.stored k ref hk
    refine ⟨hlt, (hreq ref).trans hreq', fun hc => ?_⟩
    have hs := hsame k ref hk hc
    exact ⟨(hcall hc).isRequest, hs.call (hcall hc).call,
      fun hne => hs.seqNo ((hcall hc).seqNo (hmsgId ref ▸ hne))⟩
  · simp only [hreq]
    exact h.called
  · intro k ref hk
    have ha := h.awaits k ref hk
    refine ⟨ha.stored, ha.hasCallbacks, ?_, ?_⟩ <;> simp only [hmsgId]
    · exact ha.place
    · exact fun hsent => hdate k ref hk hsent (ha.date hsent)

theorem Inv.update (h : Inv clock awaiting waiting s) {d : SecureRequestData}
    (hmsgId : d.msgId = (s.requests ref).msgId)
    (hrequestId : d.requestId = (s.requests ref).requestId)
    (hsame : ∀ requestId, s.requestMap requestId = some ref → s.hasCallbacks requestId →
      SameRequest (s.requests ref) d)
    (hdate : ∀ requestId, awaiting requestId = some ref →
      s.haveSent[(s.requests ref).msgId]? = some ref →
        0 < (s.requests ref).msDate → 0 < d.msDate) :
    Inv clock awaiting waiting (s.update ref d) := by
  refine h.of_requests (fun ref' => ?_) (fun k ref' hk => ?_) (fun k ref' hk => ?_)
  · rw [Function.update_apply]
    split_ifs with heq
    · exact heq ▸ ⟨hmsgId, hrequestId⟩
    · exact ⟨rfl, rfl⟩
  · rw [Function.update_apply]
    split_ifs with heq
    · exact fun hc => heq ▸ hsame k (heq ▸ hk) hc
    · exact fun _ => .refl _
  · rw [Function.update_apply]
    split_ifs with heq
    · exact heq ▸ hdate k (heq ▸ hk)
    · exact fun _ => id

/-! ## Ids -/

theorem Given.mono (h : s.Given clock msgId) (hcalls : s.msgIdCalls ≤ t.msgIdCalls) :
    t.Given clock msgId := by
  obtain ⟨hne, i, hi, rfl⟩ := h
  exact ⟨hne, i, hi.trans_le hcalls, rfl⟩

theorem Unused.notZero (h : Unused clock msgId s) : msgId ≠ 0 := h.given.1

theorem Fresh.notSent (hfresh : Fresh clock msgId s) (h : Inv clock awaiting waiting s) :
    s.haveSent[msgId]? = none := by
  cases hsent : s.haveSent[msgId]? with
  | none => rfl
  | some ref =>
    obtain ⟨href, hid, -⟩ := h.haveSent msgId ref hsent
    exact absurd hid (hfresh.unused ref href)

theorem Inv.notSent_of_waits (h : Inv clock awaiting waiting s) (hw : ref ∈ waiting) :
    s.haveSent[(s.requests ref).msgId]? = none := by
  by_contra hne
  obtain ⟨ref', hsent⟩ := Option.ne_none_iff_exists'.mp hne
  obtain ⟨hlt, hid, hne0⟩ := h.haveSent _ ref' hsent
  obtain rfl := h.msgIds ref' hlt ref (h.waits ref hw) (hid.symm ▸ hne0) hid
  exact h.apart _ hw _ hsent

/-- The requests that were sent are told from the ping. -/
theorem Inv.ne_ping (h : Inv clock awaiting waiting s) (href : ref < s.nextRef)
    (hrequest : (s.requests ref).requestId ≠ 0) (hid : (s.requests ref).msgId ≠ 0) :
    (s.requests ref).msgId ≠ s.pingMsgId :=
  fun heq => hrequest (h.ofPing ref href heq (heq ▸ hid))

/-- The next id of the clock is fresh. -/
theorem Inv.nextMsgId (h : Inv clock awaiting waiting s) (hclock : NewIds clock (s.msgIdCalls + 1)) :
    Inv clock awaiting waiting (s.nextMsgId clock).2 ∧
      Fresh clock (s.nextMsgId clock).1 (s.nextMsgId clock).2 := by
  have hlater : ∀ msgId, s.Given clock msgId → (s.nextMsgId clock).2.Given clock msgId :=
    fun _ hg => hg.mono (Nat.le_succ _)
  have hnot : ∀ msgId, msgId = 0 ∨ s.Given clock msgId → msgId ≠ clock s.msgIdCalls := by
    rintro _ (rfl | ⟨-, i, hi, rfl⟩) heq
    · exact (hclock _ (Nat.lt_succ_self _)).1 heq.symm
    · exact (hclock _ (Nat.lt_succ_self _)).2 i hi heq
  constructor
  · refine { h with
      given := fun ref href => (h.given ref href).imp id (hlater _)
      toResend := fun m k hk => (h.toResend m k hk).imp (hlater m) id
      wereAcked := fun m hm => (h.wereAcked m hm).imp id (hlater _)
      ping := h.ping.imp id (hlater _)
      awaits := fun k ref hk => ?_ }
    have ha := h.awaits k ref hk
    exact ⟨ha.stored, ha.hasCallbacks, ha.place, ha.date⟩
  · refine ⟨⟨⟨(hclock _ (Nat.lt_succ_self _)).1, s.msgIdCalls, Nat.lt_succ_self _, rfl⟩,
      fun ref href => ?_, ?_⟩, ?_, ?_⟩
    · exact hnot _ (h.given ref href)
    · exact hnot _ h.ping
    · by_contra hne
      obtain ⟨k, hk⟩ := Option.ne_none_iff_exists'.mp hne
      exact hnot _ (.inr (h.toResend _ k hk).1) rfl
    · rw [← notMem_iff_none]
      exact fun hmem => hnot _ (h.wereAcked _ hmem) rfl

theorem update_requests_self (s : SessionData) (ref : RequestRef) (d : SecureRequestData) :
    (s.update ref d).requests ref = d := Function.update_self _ _ _

theorem update_requests_of_ne {ref ref' : RequestRef} (hne : ref' ≠ ref) (s : SessionData)
    (d : SecureRequestData) : (s.update ref d).requests ref' = s.requests ref' :=
  Function.update_of_ne hne _ _

theorem update_requestId {d : SecureRequestData}
    (hrequestId : d.requestId = (s.requests ref).requestId) (ref' : RequestRef) :
    ((s.update ref d).requests ref').requestId = (s.requests ref').requestId := by
  by_cases heq : ref' = ref
  · rw [heq, update_requests_self, hrequestId]
  · rw [update_requests_of_ne heq]

/-- A request that was not sent gets a fresh id, or loses its id. -/
theorem Inv.setMsgId (h : Inv clock awaiting waiting s) {d : SecureRequestData}
    (hid : d.msgId = 0 ∨ Unused clock d.msgId s) (hloose : ∀ m : MsgId, s.haveSent[m]? ≠ some ref)
    (hlost : (s.requests ref).requestId ≠ 0 → ref ∈ waiting →
      ∀ m : MsgId, s.toResend[m]? ≠ some (s.requests ref).requestId)
    (hrequestId : d.requestId = (s.requests ref).requestId)
    (hcall : ∀ requestId, s.requestMap requestId = some ref → s.hasCallbacks requestId →
      IsCallRequest d ∧ (d.msgId ≠ 0 → d.seqNo &&& 1 = 1)) :
    Inv clock awaiting waiting (s.update ref d) := by
  have hself : (s.update ref d).requests ref = d := s.update_requests_self ref d
  have hother : ∀ ref', ref' ≠ ref → (s.update ref d).requests ref' = s.requests ref' :=
    fun ref' hne => s.update_requests_of_ne hne d
  have hreq : ∀ ref', ((s.update ref d).requests ref').requestId = (s.requests ref').requestId := by
    intro ref'
    by_cases heq : ref' = ref
    · rw [heq, hself, hrequestId]
    · rw [hother ref' heq]
  refine ⟨fun ref' href' => ?_, fun ref₁ href₁ ref₂ href₂ hne heq => ?_, ?_, fun m ref' hm => ?_,
    h.waits, h.apart, ?_, ?_, fun m k hk hk0 ref' hw hreq' => ?_, h.unsent, h.wereAcked, h.ping,
    fun ref' href' => ?_, ?_, ?_, fun k ref' hk => ?_⟩
  · by_cases heq : ref' = ref
    · rw [heq, hself]
      exact hid.imp id fun hunused => hunused.given
    · rw [hother ref' heq]
      exact h.given ref' href'
  · by_cases h₁ : ref₁ = ref <;> by_cases h₂ : ref₂ = ref
    · rw [h₁, h₂]
    · rw [h₁, hself] at hne heq
      rw [hother ref₂ h₂] at heq
      exact absurd heq.symm ((hid.resolve_left hne).unused ref₂ href₂)
    · rw [hother ref₁ h₁] at hne heq
      rw [h₂, hself] at heq
      exact absurd heq ((hid.resolve_left (heq ▸ hne)).unused ref₁ href₁)
    · rw [hother ref₁ h₁] at hne
      rw [hother ref₁ h₁, hother ref₂ h₂] at heq
      exact h.msgIds ref₁ href₁ ref₂ href₂ hne heq
  · simp only [hreq]
    exact h.requestIds
  · have hne : ref' ≠ ref := fun heq => hloose m (heq ▸ hm)
    rw [hother ref' hne]
    exact h.haveSent m ref' hm
  · simp only [hreq]
    exact h.sent
  · simp only [hreq]
    exact h.toResend
  · rw [hreq] at hreq'
    have hne : ref' ≠ ref := by
      rintro rfl
      exact hlost (hreq' ▸ hk0) hw m (hreq' ▸ hk)
    rw [hother ref' hne]
    exact h.lost m k hk hk0 ref' hw hreq'
  · by_cases heq : ref' = ref
    · rw [heq, hself]
      exact fun hp hne => absurd hp.symm (hid.resolve_left (hp ▸ hne)).ping
    · rw [hother ref' heq]
      exact h.ofPing ref' href'
  · intro k ref' hk
    obtain ⟨hlt, hreq', hstored⟩ := h.stored k ref' hk
    refine ⟨hlt, (hreq ref').trans hreq', fun hc => ?_⟩
    by_cases heq : ref' = ref
    · subst heq
      obtain ⟨hcall', hodd⟩ := hcall k hk hc
      rw [hself]
      exact ⟨(hstored hc).isRequest, hcall', hodd⟩
    · rw [hother ref' heq]
      exact hstored hc
  · simp only [hreq]
    exact h.called
  · have ha := h.awaits k ref' hk
    by_cases heq : ref' = ref
    · subst heq
      exact ⟨ha.stored, ha.hasCallbacks, .inl (ha.place.resolve_right (hloose _)),
        fun hsent => absurd hsent (hloose _)⟩
    · refine ⟨ha.stored, ha.hasCallbacks, ?_, ?_⟩ <;> rw [hother ref' heq]
      exacts [ha.place, ha.date]

end SessionData

end Bettergram.Mtproto
