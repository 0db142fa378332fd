import Bettergram.Mtproto.ResendInvariant

/-! # What the server says loses no request

An ack without an answer takes only requests that need none, and an answer
takes the request that it is for.
-/

namespace Bettergram.Mtproto
open Foundation

namespace SessionData

variable {clock : ℕ → MsgId} {awaiting : Awaiting} {s t : SessionData} {ref : RequestRef}
  {msgId : MsgId} {requestId : RequestId} {byResponse : Bool}

/-- No request that awaits an answer is found under the id. -/
structure NotAwaited (awaiting : Awaiting) (s : SessionData) (msgId : MsgId) : Prop where
  haveSent : ∀ requestId ref, awaiting requestId = some ref → s.haveSent[msgId]? ≠ some ref
  toResend : ∀ requestId, s.toResend[msgId]? = some requestId → awaiting requestId = none

theorem NotAwaited.shrinks (h : NotAwaited awaiting s msgId) (hs : Shrinks s t) :
    NotAwaited awaiting t msgId :=
  ⟨fun k ref hk hm => h.haveSent k ref hk (hs.haveSent hm), fun k hk => h.toResend k (hs.toResend hk)⟩

theorem Inv.given_of_sent {waiting : Set RequestRef} (h : Inv clock awaiting waiting s)
    (hsent : s.haveSent[msgId]? = some ref) : s.Given clock msgId := by
  obtain ⟨hlt, hid, hne⟩ := h.haveSent msgId ref hsent
  exact hid ▸ (h.given ref hlt).resolve_left (hid.symm ▸ hne)

/-- An id that is acked without an answer, or is of no one who awaits one. -/
theorem Kept.ackStep {toAckMore : List MsgId} {x : SessionData × List MsgId}
    (h : Kept clock awaiting s) (hstep : AckStep byResponse s toAckMore msgId x)
    (hnot : byResponse → NotAwaited awaiting s msgId) : Kept clock awaiting x.1 := by
  have hcall : ∀ k ref, awaiting k = some ref → (s.requests ref).requestId = k ∧ s.hasCallbacks k :=
    fun k ref hk => ⟨(h.inv.stored k ref (h.inv.awaits k ref hk).stored).2.1,
      (h.inv.awaits k ref hk).hasCallbacks⟩
  have hmoves : ∀ k ref, awaiting k = some ref → s.moveToAcked byResponse k → byResponse := by
    intro k ref hk hmove
    simpa [moveToAcked, (hcall k ref hk).2] using hmove
  have hacked : ∀ requestId : RequestId, s.Given clock msgId →
      ∀ m ∈ s.wereAcked.insert msgId requestId, m ∈ s.wereAcked ∨ m = 0 ∨ s.Given clock m := by
    intro requestId hgiven m hm
    obtain heq | hm := Std.TreeMap.mem_insert.mp hm
    · exact .inr (.inr (Std.LawfulEqCmp.compare_eq_iff_eq.mp heq ▸ hgiven))
    · exact .inl hm
  cases hstep with
  | container ref hsent hdate =>
    refine h.eraseSent fun k ref' hk hm => ?_
    obtain rfl := Option.some.inj (hsent.symm.trans hm)
    exact h.not_awaited_of_date hsent (by omega) k hk
  | sent ref hsent hdate hmove =>
    have herase : Kept clock awaiting { s with haveSent := s.haveSent.erase msgId } := by
      refine h.eraseSent fun k ref' hk hm => ?_
      obtain rfl := Option.some.inj (hsent.symm.trans hm)
      exact (hnot (hmoves k ref hk ((hcall k ref hk).1 ▸ hmove))).haveSent k ref hk hsent
    exact herase.loses { Loses.refl clock _ _ _ with wereAcked := hacked _ (h.inv.given_of_sent hsent) } fun _ _ => id
  | resent reqId ref hsent hresend hmove hwaits =>
    have hnone : ∀ ref', awaiting reqId ≠ some ref' := by
      intro ref' hk
      exact absurd ((hnot (hmoves reqId ref' hk hmove)).toResend reqId hresend) (by simp [hk])
    refine h.loses { Loses.refl clock _ ∅ _ with
      toResend := fun hk => (getElem?_of_erase hk).2
      waits := fun ref => Exists.imp fun k hk => (getElem?_of_erase hk).2
      wereAcked := hacked _ (h.inv.toResend msgId reqId hresend).1
      place := fun {k ref'} hk => ⟨Exists.imp fun k' hk' => ?_, fun _ => id⟩ }
      fun k ref hk => (getElem?_of_erase hk).2
    refine (erase_getElem? _ _ _).trans ((if_neg ?_).trans hk')
    rintro rfl
    obtain rfl := (h.toSend _ ref' hk').symm.trans (hcall k ref' hk).1
    exact hnone ref' hk
  | forgotten reqId hsent hresend =>
    exact h.loses { Loses.refl _ _ _ _ with toResend := fun hk => (getElem?_of_erase hk).2 } fun _ _ => id
  | kept => exact h

theorem Kept.requestsAcked (h : Kept clock awaiting s) {ids : List MsgId}
    (hnot : byResponse → ∀ msgId ∈ ids, NotAwaited awaiting s msgId) :
    Kept clock awaiting (s.requestsAcked ids byResponse) := by
  have hacked := requestsAcked_induction
    (P := fun byResponse next _ t => Kept clock awaiting t ∧
      (byResponse → ∀ msgId ∈ next, NotAwaited awaiting t msgId))
    (fun byResponse next toAckMore msgId t x hP hstep => ?_)
    (fun byResponse toAckMore t wereAcked clearDelayed hP hsub => ?_) ⟨h, hnot⟩
  · exact hacked.1
  · refine ⟨hP.1.ackStep hstep fun hr => hP.2 hr msgId (by simp), fun hr m hm => ?_⟩
    exact (hP.2 hr m (by simp [hm])).shrinks hstep.shrinks
  · exact ⟨hP.1.loses { Loses.refl clock _ _ _ with wereAcked := fun m hm => .inl (hsub m hm) } fun _ _ => id, by simp⟩

theorem Kept.acked (h : Kept clock awaiting s) (ids : List MsgId) :
    Kept clock awaiting (s.requestsAcked ids false) := h.requestsAcked fun hr => by simp at hr

/-! ## Messages of the server -/

theorem Kept.handleMsgsAck (h : Kept clock awaiting s) (ids : List MsgId) (badTime : Bool) :
    Kept clock awaiting (s.handleMsgsAck ids badTime).2 := by
  rw [SessionData.handleMsgsAck]
  split_ifs
  · exact h
  · exact h
  · exact h.acked ids

theorem Kept.resendAsync (h : Kept clock awaiting s) (now : ℤ) (msgId : MsgId)
    (forceContainer : Bool) : Kept clock awaiting (s.resendAsync now msgId forceContainer) := by
  rw [SessionData.resendAsync]
  split_ifs
  · exact h
  · exact h.resend now msgId forceContainer

theorem Kept.handleMsgsStates (h : Kept clock awaiting s) (now : ℤ) (ids : List MsgId)
    (states : List UInt8) : Kept clock awaiting (s.handleMsgsStates now ids states).1 := by
  rw [SessionData.handleMsgsStates]
  split_ifs
  · exact h
  generalize ids.zip states = requests
  generalize ([] : List MsgId) = acked
  induction requests generalizing s acked with
  | nil => exact h
  | cons request requests ih =>
    have hone : Kept clock awaiting (handleMsgState now (s, acked) request).1 := by
      rw [handleMsgState]
      split_ifs
      · exact h
      · exact h.resendAsync now request.1 true
      · exact h
      · exact h
    exact ih hone _

theorem Kept.handleMsgsStateInfo (h : Kept clock awaiting s) (now : ℤ) (reqMsgId : MsgId)
    (states : List UInt8) (badTime : Bool) :
    Kept clock awaiting (s.handleMsgsStateInfo now reqMsgId states badTime).2 := by
  rw [SessionData.handleMsgsStateInfo]
  split
  · exact h
  dsimp only
  have hnone : Kept clock awaiting (s.requestsAcked [] true) := h.requestsAcked (by simp)
  generalize s.requestsAcked [] true = t at hnone
  split_ifs
  · exact hnone
  split
  · exact hnone
  · exact (hnone.handleMsgsStates now _ states).acked _

theorem Kept.handleMsgsAllInfo (h : Kept clock awaiting s) (now : ℤ) (ids : List MsgId)
    (states : List UInt8) (badTime : Bool) :
    Kept clock awaiting (s.handleMsgsAllInfo now ids states badTime).2 := by
  rw [SessionData.handleMsgsAllInfo]
  split_ifs
  · exact h
  · exact (h.handleMsgsStates now ids states).acked _

/-- A session that is to be reset is still as it was. -/
theorem Kept.handleBadMsgNotification (h : Kept clock awaiting s) (now : ℤ) (badMsgId : MsgId)
    (errorCode : ℤ) (badTime : Bool) :
    Kept clock awaiting (s.handleBadMsgNotification now badMsgId errorCode badTime).2 := by
  rw [SessionData.handleBadMsgNotification]
  split_ifs
  · exact h
  · exact h.resendAsync now badMsgId true
  · exact h
  · dsimp only
    split_ifs
    · exact h
    · exact h.loses { Loses.refl _ _ _ _ with } fun _ _ => id

theorem Kept.handleBadServerSalt (h : Kept clock awaiting s) (now : ℤ) (badMsgId : MsgId)
    (badTime : Bool) : Kept clock awaiting (s.handleBadServerSalt now badMsgId badTime).2 := by
  rw [SessionData.handleBadServerSalt]
  split_ifs
  · exact h
  · exact h.resendAsync now badMsgId false

theorem Kept.handleNewSession (h : Kept clock awaiting s) (now : ℤ) (firstMsgId : MsgId)
    (badTime : Bool) : Kept clock awaiting (s.handleNewSession now firstMsgId badTime).2 := by
  rw [SessionData.handleNewSession]
  split_ifs
  · exact h
  · exact h.resendMany now _ true

theorem Kept.wasSent_of_sent (h : Kept clock awaiting s) (hk : awaiting requestId = some ref)
    (hsent : s.haveSent[msgId]? = some ref) : s.wasSent msgId = requestId := by
  obtain ⟨hlt, hid, hne⟩ := h.inv.haveSent msgId ref hsent
  obtain ⟨-, hreq, hcall⟩ := h.inv.stored requestId ref (h.inv.awaits requestId ref hk).stored
  have hne0 := (hcall (h.inv.awaits requestId ref hk).hasCallbacks).isRequest.1
  have hping := h.inv.ne_ping hlt (hreq.symm ▸ hne0) (hid.symm ▸ hne)
  rw [wasSent, if_neg (hid ▸ hping), hsent]
  dsimp only
  rw [hreq, if_pos hne0]

/-- The id of a request that awaits its answer and is lost is its own. -/
theorem Kept.msgId_of_resend (h : Kept clock awaiting s) (hk : awaiting requestId = some ref)
    (hresend : s.toResend[msgId]? = some requestId) :
    ref ∈ s.waitingRefs ∧ (s.requests ref).msgId = msgId := by
  have ha := h.inv.awaits requestId ref hk
  obtain ⟨-, hreq, hcall⟩ := h.inv.stored requestId ref ha.stored
  have hne0 := (hcall ha.hasCallbacks).isRequest.1
  rcases ha.place with hw | hsent
  · exact ⟨hw, h.inv.lost msgId requestId hresend hne0 ref hw hreq⟩
  · exact absurd (hreq.symm ▸ hresend) (h.inv.sent _ ref hsent (hreq.symm ▸ hne0) msgId)

theorem Kept.wasSent_of_resend (h : Kept clock awaiting s)
    (hk : awaiting requestId = some ref) (hresend : s.toResend[msgId]? = some requestId) :
    s.wasSent msgId = requestId := by
  obtain ⟨hw, hid⟩ := h.msgId_of_resend hk hresend
  obtain ⟨hlt, hreq, hcall⟩ := h.inv.stored requestId ref (h.inv.awaits requestId ref hk).stored
  have hne0 := (hcall (h.inv.awaits requestId ref hk).hasCallbacks).isRequest.1
  have hne := (h.inv.toResend msgId requestId hresend).1.1
  have hping := h.inv.ne_ping hlt (hreq.symm ▸ hne0) (hid.symm ▸ hne)
  have hsent := hid ▸ h.inv.notSent_of_waits hw
  rw [wasSent, if_neg (hid ▸ hping), hsent]
  dsimp only
  rw [hresend]

/-- Whatever an answer takes away is the request it is for. -/
theorem Kept.notAwaited_wasSent (h : Kept clock awaiting s) (msgId : MsgId) :
    NotAwaited (Function.update awaiting (s.wasSent msgId) none) s msgId := by
  have hother : ∀ k ref, Function.update awaiting (s.wasSent msgId) none k = some ref →
      k ≠ s.wasSent msgId ∧ awaiting k = some ref := by
    intro k ref hk
    rw [Function.update_apply] at hk
    split_ifs at hk with heq
    exact ⟨heq, hk⟩
  refine ⟨fun k ref hk hsent => ?_, fun k hresend => ?_⟩
  · obtain ⟨hne, hk⟩ := hother k ref hk
    exact hne (h.wasSent_of_sent hk hsent).symm
  · by_contra hsome
    obtain ⟨ref, hk⟩ := Option.ne_none_iff_exists'.mp hsome
    obtain ⟨hne, hk⟩ := hother k ref hk
    exact hne (h.wasSent_of_resend hk hresend).symm

theorem Kept.handleRpcResult (h : Kept clock awaiting s)
    (ungzip : List Int32 → List Int32) (reqMsgId : MsgId) (result : List Int32) (badTime : Bool) :
    Kept clock (Function.update awaiting (s.wasSent reqMsgId) none)
      (s.handleRpcResult ungzip reqMsgId result badTime).2 := by
  rw [SessionData.handleRpcResult]
  split_ifs
  · exact h.answered _
  have hacked : Kept clock (Function.update awaiting (s.wasSent reqMsgId) none)
      (s.requestsAcked [reqMsgId] true) := by
    refine (h.answered (s.wasSent reqMsgId)).requestsAcked fun _ m hm => ?_
    obtain rfl := List.mem_singleton.mp hm
    exact h.notAwaited_wasSent m
  dsimp only
  split
  · exact hacked
  · dsimp only
    split_ifs
    · exact hacked.loses { Loses.refl _ _ _ _ with } fun _ _ => id
    · exact hacked

end SessionData

end Bettergram.Mtproto
