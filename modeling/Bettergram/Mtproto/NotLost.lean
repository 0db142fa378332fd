import Bettergram.Mtproto.ResetInvariant
import Bettergram.Mtproto.TryToSendInvariant

/-! # No request of a session is lost

As long as no reset of the session has to give two new ids, a request that
awaits an answer waits in `toSend` or is known in `haveSent`, and what was sent
is sent again when its loss is known.
-/

namespace Bettergram.Mtproto
open Foundation

namespace SessionData

variable {clock : ℕ → MsgId} {ungzip : List Int32 → List Int32} {awaiting : Awaiting}
  {s t : SessionData} {ref : RequestRef} {msgId lost : MsgId} {requestId : RequestId}

/-! ## Runs -/

/-- The session is not reset with two ids above the next one of the clock. -/
def ResetsSafely (clock : ℕ → MsgId) (s : SessionData) : SessionEvent → Prop
  | .badMsgNotification _ badMsgId errorCode _ =>
    (errorCode = 32 ∨ errorCode = 33) → s.wasSent badMsgId ≠ 0 → s.OneIdAbove clock
  | _ => True

/-- A state of a session that began empty, with the requests that await an answer, when each step
was `safe`. -/
inductive Reaches (clock : ℕ → MsgId) (ungzip : List Int32 → List Int32)
    (safe : SessionData → SessionEvent → Prop) : SessionData → Awaiting → Prop
  | start : Reaches clock ungzip safe {} fun _ => none
  | step {s : SessionData} {awaiting : Awaiting} (h : Reaches clock ungzip safe s awaiting)
      (event : SessionEvent) (hallowed : s.Allowed event) (hsafe : safe s event)
      (hclock : NewIds clock (s.step clock ungzip event).msgIdCalls) :
      Reaches clock ungzip safe (s.step clock ungzip event) (s.awaitingAfter awaiting event)

theorem Kept.start : Kept clock (fun _ => none) {} := by
  have hnone : ∀ {β : Type} (m : MsgId) (x : β), (∅ : Std.TreeMap MsgId β)[m]? ≠ some x := by
    simp
  have hrequests : ∀ ref : RequestRef, ¬ ref < 0 := Nat.not_lt_zero
  refine ⟨⟨?_, ?_, ?_, ?_, ?_, ?_, ?_, ?_, ?_, ?_, ?_, .inl rfl, ?_, ?_, ?_, ?_⟩, ?_⟩
  · exact fun ref hlt => absurd hlt (hrequests ref)
  · exact fun ref hlt => absurd hlt (hrequests ref)
  · exact fun ref hlt => absurd hlt (hrequests ref)
  · exact fun m ref hm => absurd hm (hnone m ref)
  · exact fun ref ⟨k, hk⟩ => absurd hk (by simp)
  · exact fun _ _ m hm => absurd hm (hnone m _)
  · exact fun m ref hm => absurd hm (hnone m ref)
  · exact fun m k hk => absurd hk (hnone m k)
  · exact fun m k hk => absurd hk (hnone m k)
  · exact fun m k hk => absurd hk (hnone m k)
  · exact fun m hm => absurd hm (by simp)
  · exact fun ref hlt => absurd hlt (hrequests ref)
  · exact fun _ _ hk => absurd hk (by simp)
  · exact fun _ hk => absurd hk (by simp [hasCallbacks])
  · exact fun _ _ hk => absurd hk (by simp)
  · exact fun k ref hk => absurd hk (by simp)

/-- A complaint is about a message that was sent, when it resets the session. -/
theorem handleBadMsgNotification_reset {now : ℤ} {badMsgId : MsgId} {errorCode : ℤ} {badTime : Bool}
    (hreset : (s.handleBadMsgNotification now badMsgId errorCode badTime).1 = .resetSession) :
    (errorCode = 32 ∨ errorCode = 33) ∧ s.wasSent badMsgId ≠ 0 ∧
      (s.handleBadMsgNotification now badMsgId errorCode badTime).2 = s := by
  rw [handleBadMsgNotification] at hreset ⊢
  have hnot : ∀ badTime, ignoredIf badTime ≠ .resetSession := by
    intro badTime
    rw [ignoredIf]
    split_ifs <;> simp
  split_ifs at hreset ⊢ with hcode hzero hagain
  · exact absurd hreset (hnot badTime)
  · refine ⟨?_, hzero, rfl⟩
    simp only [List.mem_cons, List.not_mem_nil, or_false, not_or] at hcode hagain
    omega
  · exact absurd hreset (hnot badTime)

/-- What one step keeps. -/
theorem Kept.step (h : Kept clock awaiting s) {event : SessionEvent} (hallowed : s.Allowed event)
    (hsafe : s.ResetsSafely clock event)
    (hclock : NewIds clock (s.step clock ungzip event).msgIdCalls) :
    Kept clock (s.awaitingAfter awaiting event) (s.step clock ungzip event) := by
  cases event with
  | sendRequest r => exact h.sendRequest hallowed.1 hallowed.2.2
  | sendPrepared requestId => exact h.sendStored hallowed
  | tryToSend m => exact h.tryToSend hclock hallowed.1 hallowed.2
  | resend now msgId forceContainer => exact h.resend now msgId forceContainer
  | resendAll now => exact h.resendMany now _ true
  | cancel requestId => exact h.cancel requestId
  | checkRequestsByTimer ms unixtime => exact h.checkRequestsByTimer ms unixtime
  | clearCallbacks =>
    rw [awaitingAfter, SessionData.step]
    cases hdelayed : s.clearDelayed with
    | nil =>
      rw [SessionData.takeClearDelayed, hdelayed]
      exact h
    | cons x rest => exact h.takeClearDelayed hdelayed
  | execCallback requestId handled => exact h.takeResponse requestId handled
  | msgsAck ids badTime => exact h.handleMsgsAck ids badTime
  | msgsStateInfo now reqMsgId states badTime =>
    exact h.handleMsgsStateInfo now reqMsgId states badTime
  | msgsAllInfo now ids states badTime => exact h.handleMsgsAllInfo now ids states badTime
  | badMsgNotification now badMsgId errorCode badTime =>
    rw [SessionData.step, afterResult] at hclock ⊢
    split_ifs at hclock ⊢ with hreset
    · obtain ⟨hcode, hsent, hsame⟩ := handleBadMsgNotification_reset hreset
      rw [hsame] at hclock ⊢
      exact h.resetSession hclock (hsafe hcode hsent)
    · exact h.handleBadMsgNotification now badMsgId errorCode badTime
  | badServerSalt now badMsgId badTime => exact h.handleBadServerSalt now badMsgId badTime
  | newSession now firstMsgId badTime => exact h.handleNewSession now firstMsgId badTime
  | rpcResult reqMsgId result badTime => exact h.handleRpcResult ungzip reqMsgId result badTime

theorem Reaches.kept (h : Reaches clock ungzip (ResetsSafely clock) s awaiting) :
    Kept clock awaiting s := by
  induction h with
  | start => exact .start
  | step _ _ hallowed hsafe hclock ih => exact ih.step hallowed hsafe hclock

/-! ## A loss that is known -/

/-- The message is the request itself, or a container that is remembered with its id. -/
inductive Carries (s : SessionData) (msgId : MsgId) : MsgId → Prop
  | itself : Carries s msgId msgId
  | container {lost : MsgId} {wrap : RequestRef} (hsent : s.haveSent[lost]? = some wrap)
      (hcontainer : (s.requests wrap).isSentContainer) (hids : msgId ∈ (s.requests wrap).sentIds) :
      Carries s msgId lost

/-- What was sent under an id is no more, when the id is sent again. -/
theorem Kept.resendFrom_gone (h : Kept clock awaiting s) (hk : awaiting requestId = some ref)
    (now : ℤ) (fuel : ℕ) (forceContainer : Bool) :
    (s.resendFrom now (fuel + 1) forceContainer msgId).haveSent[msgId]? ≠ some ref := by
  intro hm
  have hsent := resendFrom_haveSent hm
  have hid := (h.inv.haveSent msgId ref hsent).2.1
  have ha := h.inv.awaits requestId ref hk
  have hcall := ((h.inv.stored requestId ref ha.stored).2.2 ha.hasCallbacks).call
  rw [resendFrom_request hsent (isSentContainer_of_date (ha.date (hid.symm ▸ hsent)))
    hcall.isStateRequest] at hm
  exact (getElem?_of_erase hm).1 rfl

theorem Kept.resendAll_gone (h : Kept clock awaiting s) (hk : awaiting requestId = some ref)
    (now : ℤ) (fuel : ℕ) {ids : List MsgId} (hmem : msgId ∈ ids) :
    (ids.foldl (SessionData.resendFrom now (fuel + 1) true) s).haveSent[msgId]? ≠ some ref := by
  have hfold : ∀ (ids : List MsgId) (t : SessionData),
      (ids.foldl (SessionData.resendFrom now (fuel + 1) true) t).haveSent[msgId]? = some ref →
        t.haveSent[msgId]? = some ref := by
    intro ids
    induction ids with
    | nil => exact fun _ => id
    | cons id ids ih => exact fun t ht => resendFrom_haveSent (ih _ ht)
  induction ids generalizing s with
  | nil => simp at hmem
  | cons id ids ih =>
    by_cases heq : msgId = id
    · subst heq
      exact fun hm => h.resendFrom_gone hk now fuel true (hfold ids _ hm)
    · exact ih (h.resendFrom now (fuel + 1) true id) ((List.mem_cons.mp hmem).resolve_left heq)

/-- A request whose loss is known waits again. -/
theorem Kept.resend_waits (h : Kept clock awaiting s) (hk : awaiting requestId = some ref)
    (hsent : s.haveSent[msgId]? = some ref) (hcarries : s.Carries msgId lost) (now : ℤ)
    (forceContainer : Bool) :
    (s.resend now lost forceContainer).toSend[requestId]? = some ref := by
  have hkept := h.resend now lost forceContainer
  have hgone : (s.resend now lost forceContainer).haveSent[msgId]? ≠ some ref := by
    cases hcarries with
    | itself => exact h.resendFrom_gone hk now _ forceContainer
    | container hlost hcontainer hids =>
      obtain ⟨fuel, hfuel⟩ : ∃ fuel, s.haveSent.size = fuel + 1 := by
        refine Nat.exists_eq_succ_of_ne_zero fun hzero => ?_
        have hempty := Std.TreeMap.isEmpty_eq_size_eq_zero (t := s.haveSent)
        rw [hzero] at hempty
        have hcontains := Std.TreeMap.isEmpty_iff_forall_contains.mp (by simpa using hempty) lost
        rw [Std.TreeMap.contains_eq_isSome_getElem?, hlost] at hcontains
        simp at hcontains
      rw [SessionData.resend, SessionData.resendFrom, hlost]
      dsimp only
      rw [if_pos hcontainer, hfuel]
      have herase : Kept clock awaiting { s with haveSent := s.haveSent.erase lost } := by
        refine h.eraseSent fun k ref' hk' hm => ?_
        obtain rfl := Option.some.inj (hlost.symm.trans hm)
        refine h.not_awaited_of_date hlost (fun hd => ?_) k hk'
        simp [isSentContainer_of_date hd] at hcontainer
      exact herase.resendAll_gone hk now fuel hids
  have ha := hkept.inv.awaits requestId ref hk
  rcases ha.place with ⟨k, hw⟩ | hm
  · obtain rfl := (hkept.toSend k ref hw).symm.trans (hkept.inv.stored _ ref ha.stored).2.1
    exact hw
  · have hid := (h.inv.haveSent _ ref (resendFrom_haveSent hm)).2.1
    rw [← hid, (h.inv.haveSent msgId ref hsent).2.1] at hm
    exact absurd hm hgone

/-! ## Exactly one place -/

/-- Where a request is that awaits its answer. -/
inductive OnePlace (s : SessionData) (requestId : RequestId) (ref : RequestRef) : Prop
  /-- It waits under its id, and was not sent. -/
  | waits (hwaits : s.toSend[requestId]? = some ref)
      (honce : ∀ k : RequestId, s.toSend[k]? = some ref → k = requestId)
      (hnot : ∀ msgId : MsgId, s.haveSent[msgId]? ≠ some ref)
  /-- It was sent under one id, and waits when a message with it is lost. -/
  | sent (msgId : MsgId) (hsent : s.haveSent[msgId]? = some ref)
      (honce : ∀ m : MsgId, s.haveSent[m]? = some ref → m = msgId)
      (hnot : ∀ k : RequestId, s.toSend[k]? ≠ some ref)
      (hagain : ∀ (lost : MsgId) (now : ℤ) (forceContainer : Bool), s.Carries msgId lost →
        (s.resend now lost forceContainer).toSend[requestId]? = some ref)

theorem Kept.onePlace (h : Kept clock awaiting s) (hk : awaiting requestId = some ref) :
    s.OnePlace requestId ref := by
  have ha := h.inv.awaits requestId ref hk
  have hreq := (h.inv.stored requestId ref ha.stored).2.1
  have honce : ∀ k : RequestId, s.toSend[k]? = some ref → k = requestId :=
    fun k hw => (h.toSend k ref hw).symm.trans hreq
  rcases ha.place with ⟨k, hw⟩ | hsent
  · exact .waits (honce k hw ▸ hw) honce (h.inv.apart ref ⟨k, hw⟩)
  · exact .sent _ hsent (fun m hm => (h.inv.haveSent m ref hm).2.1.symm)
      (fun k hw => h.inv.apart ref ⟨k, hw⟩ _ hsent)
      fun lost now forceContainer hcarries => h.resend_waits hk hsent hcarries now forceContainer

theorem OnePlace.mem (h : s.OnePlace requestId ref) :
    s.toSend[requestId]? = some ref ∨ ref ∈ s.haveSent.values := by
  cases h with
  | waits hwaits => exact .inl hwaits
  | sent msgId hsent => exact .inr (mem_values.mpr ⟨msgId, hsent⟩)

/-- In every run in which each reset of the session finds at most one id above the next one of the
clock, a request that awaits its answer is in one place. -/
theorem reaches_onePlace (clock : ℕ → MsgId) (ungzip : List Int32 → List Int32)
    {s : SessionData} {awaiting : Awaiting}
    (hreach : Reaches clock ungzip (ResetsSafely clock) s awaiting)
    {requestId : RequestId} {ref : RequestRef} (hk : awaiting requestId = some ref) :
    s.OnePlace requestId ref := hreach.kept.onePlace hk

/-! ## Runs with a clock that is set back -/

/-- A call of one word and a moment to send it, for the runs below. -/
def callOf (requestId : RequestId) : NewRequest where
  requestId := requestId
  body := [5]
  callbacks := true
  needsLayer := false
  afterRequestId := 0
  now := 7

def plainMoment : SendMoment where
  connected := true
  needsLayer := false
  mainSession := true
  pingIdToSend := 0
  usingHttpWait := false
  now := 8
  stateRequestId := 100
  currentLayer := 97
  initWrapper := []
  extraPadding := 0
  random := fun _ => 0

/-- The clock is set back after its first ids. -/
def setBack (before : ℕ) (n : ℕ) : MsgId :=
  if n < before then UInt64.ofNat (1000 + 4 * n) else UInt64.ofNat (4 * n)

/-- One call was sent before the clock is set back, and gets a new id. -/
theorem reaches_onePlace_setBack : ∃ s awaiting,
    Reaches (setBack 1) id (ResetsSafely (setBack 1)) s awaiting ∧ awaiting 1 = some 0 ∧
      s.OnePlace 1 0 := by
  have hstart : Reaches (setBack 1) id (ResetsSafely (setBack 1)) {} fun _ => none := .start
  have hcall := hstart.step (.sendRequest (callOf 1))
    ⟨by decide, by decide, fun _ => by decide⟩ trivial (by decide)
  have hsent := hcall.step (.tryToSend plainMoment) ⟨by decide, by decide⟩ trivial
    (by decide)
  have hreset := hsent.step (.badMsgNotification 9 1000 32 true) trivial
    (fun _ _ => by decide) (by decide)
  exact ⟨_, _, hreset, rfl, reaches_onePlace (setBack 1) id hreset rfl⟩

/-- Two calls were sent before the clock is set back; both get the same new id, and one of them is
nowhere. -/
theorem reset_loses_one : ¬ ∀ (clock : ℕ → MsgId) (ungzip : List Int32 → List Int32)
    (s : SessionData) (awaiting : Awaiting), Reaches clock ungzip (fun _ _ => True) s awaiting →
      ∀ requestId ref, awaiting requestId = some ref → s.OnePlace requestId ref := by
  intro hall
  have hstart : Reaches (setBack 2) id (fun _ _ => True) {} fun _ => none := .start
  have hcall := hstart.step (.sendRequest (callOf 1))
    ⟨by decide, by decide, fun _ => by decide⟩ trivial (by decide)
  have hsent := hcall.step (.tryToSend plainMoment) ⟨by decide, by decide⟩ trivial
    (by decide)
  have hcall' := hsent.step (.sendRequest (callOf 2))
    ⟨by decide, by decide, fun _ => by decide⟩ trivial (by decide)
  have hsent' := hcall'.step (.tryToSend plainMoment) ⟨by decide, by decide⟩ trivial
    (by decide)
  have hreset := hsent'.step (.badMsgNotification 9 1000 32 true) trivial trivial
    (by decide)
  exact absurd (hall (setBack 2) id _ _ hreset 1 0 rfl).mem (by decide)

end SessionData

end Bettergram.Mtproto
