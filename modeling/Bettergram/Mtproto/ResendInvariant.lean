import Bettergram.Mtproto.SessionMoves

/-! # Requests come and go, and none is lost

What is taken out of the maps awaits no answer, and what was sent and is lost
waits again.
-/

namespace Bettergram.Mtproto
open Foundation

namespace SessionData

variable {clock : ℕ → MsgId} {awaiting : Awaiting} {waiting : Set RequestRef}
  {s t : SessionData} {ref : RequestRef} {msgId : MsgId} {requestId : RequestId}

/-- Only what awaits no answer may go. -/
theorem Kept.loses (h : Kept clock awaiting s)
    (hl : Loses clock awaiting s.waitingRefs t.waitingRefs s t)
    (htoSend : ∀ (requestId : RequestId) (ref : RequestRef), t.toSend[requestId]? = some ref →
      s.toSend[requestId]? = some ref) : Kept clock awaiting t := by
  refine ⟨h.inv.loses hl, fun k ref hk => ?_⟩
  rw [hl.requests]
  exact h.toSend k ref (htoSend k ref hk)

theorem Kept.mono (h : Kept clock awaiting s) {awaiting' : Awaiting}
    (hsub : ∀ requestId ref, awaiting' requestId = some ref → awaiting requestId = some ref) :
    Kept clock awaiting' s := ⟨h.inv.mono hsub, h.toSend⟩

theorem Kept.answered (h : Kept clock awaiting s) (requestId : RequestId) :
    Kept clock (Function.update awaiting requestId none) s := ⟨h.inv.answered requestId, h.toSend⟩

/-! ## Sent again -/

theorem Kept.not_awaited_of_date (h : Kept clock awaiting s) (hsent : s.haveSent[msgId]? = some ref)
    (hdate : ¬ 0 < (s.requests ref).msDate) (requestId : RequestId) :
    awaiting requestId ≠ some ref := by
  intro hk
  have hid := (h.inv.haveSent msgId ref hsent).2.1
  exact hdate ((h.inv.awaits requestId ref hk).date (hid.symm ▸ hsent))

theorem Kept.eraseSent (h : Kept clock awaiting s)
    (hnot : ∀ requestId ref, awaiting requestId = some ref → s.haveSent[msgId]? ≠ some ref) :
    Kept clock awaiting { s with haveSent := s.haveSent.erase msgId } := by
  refine h.loses { Loses.refl _ _ _ _ with haveSent := fun hm => (getElem?_of_erase hm).2, place := fun {k ref} hk => ?_ }
    fun _ _ => id
  refine ⟨id, fun m hm => ?_⟩
  dsimp only
  rw [erase_getElem?, if_neg, hm]
  rintro rfl
  exact hnot k ref hk hm

/-- A request takes the place of one with its id. -/
theorem Kept.waits_insert (h : Kept clock awaiting s) (ref : RequestRef)
    (htoSend : t.toSend = s.toSend.insert (s.requests ref).requestId ref) :
    (∀ ref' ∈ t.waitingRefs, ref' = ref ∨ ref' ∈ s.waitingRefs) ∧
      (∀ ref' ∈ s.waitingRefs, (s.requests ref').requestId ≠ (s.requests ref).requestId →
        ref' ∈ t.waitingRefs) ∧ ref ∈ t.waitingRefs ∧
      ∀ (requestId : RequestId) (ref' : RequestRef), t.toSend[requestId]? = some ref' →
        (s.requests ref').requestId = requestId := by
  have hcases : ∀ (k : RequestId) (ref' : RequestRef), t.toSend[k]? = some ref' →
      ref' = ref ∧ (s.requests ref).requestId = k ∨ s.toSend[k]? = some ref' := by
    intro k ref' hk
    rw [htoSend, insert_getElem?] at hk
    split_ifs at hk with heq
    · exact .inl ⟨(Option.some.inj hk).symm, heq⟩
    · exact .inr hk
  refine ⟨?_, ?_, ⟨(s.requests ref).requestId, by rw [htoSend, insert_getElem?, if_pos rfl]⟩, ?_⟩
  · rintro ref' ⟨k, hk⟩
    exact (hcases k ref' hk).imp (·.1) fun hk => ⟨k, hk⟩
  · rintro ref' ⟨k, hk⟩ hne
    refine ⟨k, ?_⟩
    rw [htoSend, insert_getElem?, if_neg, hk]
    exact fun heq => hne ((h.toSend k ref' hk).trans heq.symm)
  · intro k ref' hk
    obtain ⟨rfl, hreq⟩ | hk := hcases k ref' hk
    · exact hreq
    · exact h.toSend k ref' hk

/-- A request that was sent waits again under its request id. -/
theorem Kept.lose (h : Kept clock awaiting s) (hsent : s.haveSent[msgId]? = some ref) (date : ℤ) :
    Kept clock awaiting { s.update ref { s.requests ref with msDate := date } with
      toSend := s.toSend.insert (s.requests ref).requestId ref
      haveSent := s.haveSent.erase msgId
      toResend := s.toResend.insert msgId (s.requests ref).requestId } := by
  let t : SessionData := { s with
    toSend := s.toSend.insert (s.requests ref).requestId ref
    haveSent := s.haveSent.erase msgId
    toResend := s.toResend.insert msgId (s.requests ref).requestId }
  obtain ⟨hwaits, hkeep, hself, hkeys⟩ := h.waits_insert (t := t) ref rfl
  have hinv : Inv clock awaiting t.waitingRefs t := (h.inv.lose hsent hwaits hkeep hself).loses { Loses.refl _ _ _ _ with }
  refine ⟨hinv.update rfl rfl (fun _ _ _ => ⟨fun hc => ⟨hc.body, hc.type, hc.length⟩, id⟩)
    fun _ _ hsent => absurd hsent (hinv.apart ref hself _), fun k ref' hk => ?_⟩
  exact (update_requestId (by rfl) ref').trans (hkeys k ref' hk)

/-- What was sent and is neither a container nor a state request. -/
theorem resendFrom_request {now : ℤ} {fuel : ℕ} {forceContainer : Bool}
    (hsent : s.haveSent[msgId]? = some ref) (hcontainer : (s.requests ref).isSentContainer = false)
    (hstate : (s.requests ref).isStateRequest = false) :
    s.resendFrom now (fuel + 1) forceContainer msgId =
      { s.update ref { s.requests ref with msDate := if forceContainer then 0 else now } with
        toSend := s.toSend.insert (s.requests ref).requestId ref
        haveSent := s.haveSent.erase msgId
        toResend := s.toResend.insert msgId (s.requests ref).requestId } := by
  simp only [SessionData.resendFrom, hsent, hcontainer, hstate, sendPrepared,
    update_requests_self, Bool.not_false, if_true, Bool.false_eq_true, if_false]
  rfl

theorem Kept.resendFrom (h : Kept clock awaiting s) (now : ℤ) (fuel : ℕ) (forceContainer : Bool)
    (msgId : MsgId) : Kept clock awaiting (s.resendFrom now fuel forceContainer msgId) := by
  induction fuel generalizing s forceContainer msgId with
  | zero => exact h
  | succ fuel ih =>
    cases hsent : s.haveSent[msgId]? with
    | none =>
      rw [SessionData.resendFrom, hsent]
      exact h
    | some ref =>
      have hgone : ¬ IsCallRequest (s.requests ref) ∨ ¬ 0 < (s.requests ref).msDate →
          Kept clock awaiting { s with haveSent := s.haveSent.erase msgId } := by
        refine fun hnot => h.eraseSent fun k ref' hk hm => ?_
        obtain rfl := Option.some.inj (hsent.symm.trans hm)
        exact hnot.elim (fun hcall => h.inv.notAwaited (.inr hcall) k hk)
          fun hdate => h.not_awaited_of_date hsent hdate k hk
      cases hcontainer : (s.requests ref).isSentContainer with
      | true =>
        rw [SessionData.resendFrom, hsent]
        dsimp only
        rw [if_pos hcontainer]
        have herase := hgone (.inr fun hd => by simp [isSentContainer_of_date hd] at hcontainer)
        generalize { s with haveSent := s.haveSent.erase msgId } = t at herase
        generalize (s.requests ref).sentIds = ids
        induction ids generalizing t with
        | nil => exact herase
        | cons id ids ih' => exact ih' _ (ih herase true id)
      | false =>
        cases hstate : (s.requests ref).isStateRequest with
        | true =>
          rw [SessionData.resendFrom, hsent]
          dsimp only
          rw [if_neg (by simp [hcontainer]), if_neg (by simp [hstate])]
          exact hgone (.inl fun hcall => by simp [hcall.isStateRequest] at hstate)
        | false =>
          rw [resendFrom_request hsent hcontainer hstate]
          exact h.lose hsent _

theorem Kept.resend (h : Kept clock awaiting s) (now : ℤ) (msgId : MsgId) (forceContainer : Bool) :
    Kept clock awaiting (s.resend now msgId forceContainer) := h.resendFrom _ _ _ _

theorem Kept.resendMany (h : Kept clock awaiting s) (now : ℤ) (msgIds : List MsgId)
    (forceContainer : Bool) : Kept clock awaiting (s.resendMany now msgIds forceContainer) := by
  induction msgIds generalizing s with
  | nil => exact h
  | cons msgId msgIds ih => exact ih (h.resend now msgId forceContainer)

/-! ## New requests -/

theorem Kept.alloc (h : Kept clock awaiting s) {d : SecureRequestData} (hid : d.msgId = 0)
    (hreq : ∀ ref < s.nextRef, (s.requests ref).requestId ≠ d.requestId) :
    Kept clock awaiting (s.alloc d).2 := by
  have halloc := h.inv.alloc (.inl hid) (.inr hreq)
  refine ⟨halloc.loses { Loses.refl _ _ ∅ _ with waits := Set.subset_insert _ _, place := fun {k ref} hk => ?_ },
    fun k ref hk => ?_⟩
  · have hlt := (h.inv.stored k ref (h.inv.awaits k ref hk).stored).1
    exact ⟨fun hw => hw.resolve_left hlt.ne, fun _ => id⟩
  · have hlt := h.inv.waits ref ⟨k, hk⟩
    exact (congrArg (·.requestId) (update_requests_of_ne hlt.ne s d)).trans (h.toSend k ref hk)

/-- A request that is nowhere waits. -/
theorem Kept.wait (h : Kept clock awaiting s) (hlt : ref < s.nextRef)
    (hsent : ∀ m : MsgId, s.haveSent[m]? ≠ some ref)
    (hlost : ∀ m : MsgId, s.toResend[m]? ≠ some (s.requests ref).requestId) :
    Kept clock awaiting { s with
      toSend := s.toSend.insert (s.requests ref).requestId ref } := by
  obtain ⟨hwaits, hkeep, hself, hkeys⟩ := h.waits_insert ref
    (t := { s with toSend := s.toSend.insert (s.requests ref).requestId ref }) rfl
  exact ⟨(h.inv.wait hlt hsent (fun _ => hlost) hwaits hkeep hself).loses { Loses.refl _ _ _ _ with }, hkeys⟩

/-- Callbacks and a request are kept under a new id. -/
theorem Kept.storeRequest (h : Kept clock awaiting s) (hlt : ref < s.nextRef)
    (hreq : (s.requests ref).requestId = requestId) (hnone : s.requestMap requestId = none)
    (hnot : s.hasCallbacks requestId = false) {callbacks : Bool}
    (hcall : callbacks → IsStoredCall requestId (s.requests ref)) :
    Kept clock awaiting (s.storeRequest requestId ref callbacks) := by
  have hstored : ∀ k, (s.storeRequest requestId ref callbacks).requestMap k =
      if k = requestId then some ref else s.requestMap k := by
    intro k
    simp [SessionData.storeRequest, Function.update_apply, hnone]
  have hcalls : ∀ k, (s.storeRequest requestId ref callbacks).hasCallbacks k =
      if k = requestId then callbacks else s.hasCallbacks k := by
    intro k
    rw [hasCallbacks] at hnot
    simp [SessionData.storeRequest, hasCallbacks, Function.update_apply, hnot]
  refine ⟨{ h.inv with
    stored := fun k ref' hk => ?_
    called := fun k hk => ?_
    awaits := fun k ref' hk => ?_ }, h.toSend⟩
  · rw [hstored] at hk
    rw [hcalls]
    split_ifs at hk ⊢ with heq
    · obtain rfl := Option.some.inj hk
      exact ⟨hlt, hreq.trans heq.symm, heq ▸ hcall⟩
    · exact h.inv.stored k ref' hk
  · rw [hcalls] at hk
    split_ifs at hk with heq
    · exact ⟨ref, hlt, hreq.trans heq.symm⟩
    · exact h.inv.called k hk
  · have ha := h.inv.awaits k ref' hk
    have hne : k ≠ requestId := by
      rintro rfl
      exact absurd (hnone.symm.trans ha.stored) (by simp)
    refine ⟨?_, ?_, ha.place, ha.date⟩
    · rw [hstored, if_neg hne, ha.stored]
    · rw [hcalls, if_neg hne, ha.hasCallbacks]

theorem Kept.update (h : Kept clock awaiting s) (ref : RequestRef) {d : SecureRequestData}
    (hmsgId : d.msgId = (s.requests ref).msgId)
    (hrequestId : d.requestId = (s.requests ref).requestId)
    (hsame : SameRequest (s.requests ref) d)
    (hdate : ∀ requestId, awaiting requestId = some ref →
      s.haveSent[(s.requests ref).msgId]? = some ref →
        0 < (s.requests ref).msDate → 0 < d.msDate) : Kept clock awaiting (s.update ref d) :=
  ⟨h.inv.update hmsgId hrequestId (fun _ _ _ => hsame) hdate, fun k ref' hk =>
    (update_requestId hrequestId ref').trans (h.toSend k ref' hk)⟩

/-- A request that is nowhere waits with its id nulled. -/
theorem Kept.sendNew (h : Kept clock awaiting s) (hlt : ref < s.nextRef)
    (hsent : ∀ m : MsgId, s.haveSent[m]? ≠ some ref)
    (hlost : ∀ m : MsgId, s.toResend[m]? ≠ some (s.requests ref).requestId) :
    Kept clock awaiting (s.sendPrepared ref true) ∧
      ref ∈ (s.sendPrepared ref true).waitingRefs := by
  have hwait := h.wait hlt hsent hlost
  refine ⟨⟨?_, fun k ref' hk => ?_⟩, ⟨(s.requests ref).requestId, ?_⟩⟩
  · refine hwait.inv.setMsgId (.inl rfl) hsent (fun _ _ => hlost) rfl fun k hk hc => ?_
    have hcall := ((h.inv.stored k ref hk).2.2 hc).call
    exact ⟨⟨hcall.body, hcall.type, hcall.length⟩, fun hne => absurd rfl hne⟩
  · exact (update_requestId (by rfl) ref').trans (hwait.toSend k ref' hk)
  · exact (insert_getElem? _ _ _ _).trans (if_pos rfl)

theorem toNat_prepared {n : ℕ} (h : n < 2 ^ 29) :
    (UInt32.ofNat n <<< 2 >>> 2).toNat = n := by
  simp only [UInt32.toNat_shiftRight, UInt32.toNat_shiftLeft, UInt32.toNat_ofNat',
    UInt32.reduceToNat, Nat.shiftLeft_eq, Nat.shiftRight_eq_div_pow, Nat.reduceMod, Nat.reducePow]
  omega

theorem IsCall.isCallRequest {body : List Int32} (h : IsCall body) {d : SecureRequestData}
    (hbody : d.body = body) (hlength : d.messageLength = UInt32.ofNat body.length <<< 2) :
    IsCallRequest d := by
  refine ⟨hbody ▸ h.notEmpty, ?_, ?_⟩
  · rw [SecureRequestData.type, hbody]
    exact h.type
  · rw [hlength, toNat_prepared h.length]
    exact List.length_pos_iff.mpr h.notEmpty

theorem Kept.sendRequest (h : Kept clock awaiting s) {r : NewRequest}
    (hnew : s.IsNewRequestId r.requestId) (hcall : r.callbacks → IsCall r.body) :
    Kept clock (if r.callbacks then Function.update awaiting r.requestId (some s.nextRef)
      else awaiting) (s.sendRequest r) := by
  obtain ⟨hne, hnoRequest, hother⟩ := hnew
  have hnone : s.requestMap r.requestId = none := by
    by_contra hsome
    obtain ⟨ref, hk⟩ := Option.ne_none_iff_exists'.mp hsome
    obtain ⟨hlt, hreq, -⟩ := h.inv.stored _ ref hk
    exact hother ref hlt hreq
  have hnot : s.hasCallbacks r.requestId = false := by
    rw [← Bool.not_eq_true]
    intro hc
    obtain ⟨ref, hlt, hreq⟩ := h.inv.called _ hc
    exact hother ref hlt hreq
  have hsent : ∀ m : MsgId, s.haveSent[m]? ≠ some s.nextRef := fun m hm =>
    absurd (h.inv.haveSent m _ hm).1 (lt_irrefl _)
  have hlost : ∀ m : MsgId, s.toResend[m]? ≠ some r.requestId := by
    intro m hm
    obtain ⟨-, ref, hlt, hreq⟩ := h.inv.toResend m _ hm
    exact hother ref hlt hreq
  rw [SessionData.sendRequest]
  dsimp only
  let d : SecureRequestData := { SecureRequestData.serialize r.body with requestId := r.requestId }
  have halloc : Kept clock awaiting (s.alloc d).2 := h.alloc rfl hother
  have hself : (s.alloc d).2.requests s.nextRef = d := s.update_requests_self _ d
  have hstore : Kept clock awaiting
      ((s.alloc d).2.storeRequest r.requestId s.nextRef r.callbacks) := by
    refine halloc.storeRequest (Nat.lt_succ_self _) (by rw [hself]) hnone hnot fun hc => ?_
    rw [hself]
    exact ⟨⟨hne, hnoRequest⟩, (hcall hc).isCallRequest rfl rfl, fun hid => absurd rfl hid⟩
  generalize (if r.afterRequestId = 0 then none else _) = after
  have hupdate := hstore.update s.nextRef
    (d := { (s.alloc d).2.requests s.nextRef with
      after, msDate := r.now, needsLayer := r.needsLayer }) rfl rfl
    ⟨fun hc => ⟨hc.body, hc.type, hc.length⟩, id⟩ fun _ _ hm => absurd hm (hsent _)
  obtain ⟨hnew, hw⟩ := hupdate.sendNew (Nat.lt_succ_self _) hsent (by
    rw [update_requests_self, hself]
    exact hlost)
  split_ifs with hc
  · have hnone' : (s.alloc d).2.requestMap r.requestId = none := hnone
    refine ⟨hnew.inv.await ?_ ?_ hw, hnew.toSend⟩
    · exact (Function.update_self _ _ _).trans (by rw [hnone']; rfl)
    · exact (Function.update_self _ _ _).trans (by rw [hc, Bool.or_true])
  · exact hnew

/-- A request that was answered with an error awaits its answer again. -/
theorem Kept.sendStored (h : Kept clock awaiting s)
    (hallowed : s.Allowed (.sendPrepared requestId)) :
    Kept clock (if s.hasCallbacks requestId then
      Function.update awaiting requestId (s.requestMap requestId) else awaiting)
        (s.sendStored requestId) := by
  rw [SessionData.sendStored]
  cases hstored : s.requestMap requestId with
  | none =>
    dsimp only
    split_ifs
    · exact h.answered requestId
    · exact h
  | some ref =>
    obtain ⟨hsent, hlost, -⟩ := hallowed ref hstored
    obtain ⟨hlt, hreq, -⟩ := h.inv.stored requestId ref hstored
    obtain ⟨hnew, hw⟩ := h.sendNew hlt hsent (hreq ▸ hlost)
    dsimp only
    split_ifs with hc
    · exact ⟨hnew.inv.await hstored hc hw, hnew.toSend⟩
    · exact hnew

/-! ## Requests that are done with -/

/-- Callbacks and a request are forgotten. -/
theorem Kept.forgetRequest (h : Kept clock awaiting s) (requestId : RequestId) :
    Kept clock (Function.update awaiting requestId none)
      ((s.clearCallbacks requestId).unregisterRequest requestId) := by
  refine (h.answered requestId).loses { Loses.refl _ _ _ _ with
    stored := fun {k ref} hk => ?_
    hasCallbacks := fun {k} hk => ?_
    keeps := fun {k ref} hk => ?_ } fun _ _ => id
  · simp only [unregisterRequest, clearCallbacks, Function.update_apply] at hk
    split_ifs at hk
    exact hk
  · simp only [unregisterRequest, clearCallbacks, SessionData.hasCallbacks,
      Function.update_apply] at hk
    split_ifs at hk
    exact hk
  · rw [Function.update_apply] at hk
    split_ifs at hk with heq
    simp only [unregisterRequest, clearCallbacks, SessionData.hasCallbacks, Function.update_apply,
      if_neg heq]
    exact ⟨id, id⟩

theorem Kept.takeResponse (h : Kept clock awaiting s) (requestId : RequestId) (handled : Bool) :
    Kept clock (Function.update awaiting requestId none) (s.takeResponse requestId handled) := by
  rw [SessionData.takeResponse]
  have htaken : Kept clock awaiting
      { s with receivedResponses := s.receivedResponses.erase requestId } :=
    h.loses { Loses.refl _ _ _ _ with } fun _ _ => id
  split_ifs
  · exact htaken.forgetRequest requestId
  · exact htaken.answered requestId

theorem Kept.cancel (h : Kept clock awaiting s) (requestId : RequestId) :
    Kept clock (Function.update awaiting requestId none) (s.cancel requestId) := by
  rw [SessionData.cancel]
  by_cases hzero : requestId = 0
  · rw [if_pos hzero]
    exact h.answered requestId
  rw [if_neg hzero]
  dsimp only
  have hforgot := h.forgetRequest requestId
  have hkeys := h.toSend
  have hne : ∀ k ref, Function.update awaiting requestId none k = some ref →
      k ≠ requestId ∧ awaiting k = some ref := by
    intro k ref hk
    rw [Function.update_apply] at hk
    split_ifs at hk with heq
    exact ⟨heq, hk⟩
  have herased : Kept clock (Function.update awaiting requestId none)
      { (s.clearCallbacks requestId).unregisterRequest requestId with
        toSend := s.toSend.erase requestId } := by
    refine hforgot.loses { Loses.refl _ _ ∅ _ with
      waits := fun ref ⟨k, hk⟩ => ⟨k, (getElem?_of_erase hk).2⟩
      place := fun {k ref} hk => ⟨fun ⟨k', hk'⟩ => ⟨k', ?_⟩, fun _ => id⟩ }
      fun k ref hk => (getElem?_of_erase hk).2
    refine (erase_getElem? _ _ _).trans ((if_neg ?_).trans hk')
    rintro rfl
    obtain ⟨hne, hk⟩ := hne k ref hk
    exact hne ((h.inv.stored k ref (h.inv.awaits k ref hk).stored).2.1.symm.trans
      (hkeys _ ref hk'))
  generalize hmsgId : ((s.requestMap requestId).map fun request =>
    (s.requests request).msgId).getD 0 = msgId
  by_cases hsent : msgId = 0
  · rw [if_pos hsent]
    exact herased
  · rw [if_neg hsent]
    refine herased.eraseSent fun k ref hk hm => ?_
    obtain ⟨hne, hk⟩ := hne k ref hk
    cases hstored : s.requestMap requestId with
    | none =>
      rw [hstored] at hmsgId
      exact hsent hmsgId.symm
    | some ref' =>
      rw [hstored] at hmsgId
      obtain ⟨hlt', hreq', -⟩ := h.inv.stored requestId ref' hstored
      obtain ⟨hlt, hid, -⟩ := h.inv.haveSent msgId ref hm
      obtain rfl := h.inv.msgIds ref hlt ref' hlt' (hid.symm ▸ hsent) (hid.trans hmsgId.symm)
      exact hne ((h.inv.stored k ref (h.inv.awaits k ref hk).stored).2.1.symm.trans hreq')

/-- The main thread clears the next callbacks. -/
theorem Kept.takeClearDelayed (h : Kept clock awaiting s) {requestId : RequestId} {code : ℤ}
    {rest : List (RequestId × ℤ)} (hdelayed : s.clearDelayed = (requestId, code) :: rest) :
    Kept clock (Function.update awaiting requestId none) s.takeClearDelayed := by
  rw [SessionData.takeClearDelayed, hdelayed]
  have hrest : Kept clock awaiting { s with clearDelayed := rest } := h.loses { Loses.refl _ _ _ _ with } fun _ _ => id
  exact hrest.forgetRequest requestId

/-! ## The timer -/

theorem Kept.requestState (h : Kept clock awaiting s) {ms : ℤ} (hms : 0 < ms)
    (sent : MsgId × RequestRef) : Kept clock awaiting (s.requestState ms sent) := by
  have hupdate : Kept clock awaiting
      (s.update sent.2 { s.requests sent.2 with msDate := ms }) :=
    h.update sent.2 rfl rfl ⟨fun hc => ⟨hc.body, hc.type, hc.length⟩, id⟩ fun _ _ _ _ => hms
  exact hupdate.loses { Loses.refl _ _ _ _ with } fun _ _ => id

theorem Kept.requestStates (h : Kept clock awaiting s) {ms : ℤ} {sent : List (MsgId × RequestRef)}
    (hms : ∀ x ∈ sent, 0 < ms) :
    Kept clock awaiting (sent.foldl (SessionData.requestState ms) s) ∧
      (sent.foldl (SessionData.requestState ms) s).haveSent = s.haveSent := by
  induction sent generalizing s with
  | nil => exact ⟨h, rfl⟩
  | cons x sent ih =>
    exact ih (h.requestState (hms x (by simp)) x) fun y hy => hms y (by simp [hy])

/-- What is forgotten awaits no answer. -/
theorem Kept.forgetAll (h : Kept clock awaiting s) {msgIds : List MsgId}
    (hnot : ∀ msgId ∈ msgIds, ∀ requestId ref, awaiting requestId = some ref →
      s.haveSent[msgId]? ≠ some ref) : Kept clock awaiting (msgIds.foldl forget s) := by
  induction msgIds generalizing s with
  | nil => exact h
  | cons msgId msgIds ih =>
    have hrest : ∀ m ∈ msgIds, ∀ k ref, awaiting k = some ref → s.haveSent[m]? ≠ some ref :=
      fun m hm => hnot m (by simp [hm])
    rw [List.foldl_cons, forget]
    split
    · exact ih h hrest
    · have herase := h.eraseSent (hnot msgId (by simp))
      refine ih (herase.loses { Loses.refl _ _ _ _ with } fun _ _ => id) fun m hm k ref hk hsent => ?_
      exact hrest m hm k ref hk (getElem?_of_erase hsent).2

theorem resendFrom_haveSent {now : ℤ} {fuel : ℕ} {forceContainer : Bool} {lost : MsgId}
    (h : (s.resendFrom now fuel forceContainer lost).haveSent[msgId]? = some ref) :
    s.haveSent[msgId]? = some ref := by
  induction fuel generalizing s forceContainer lost with
  | zero => exact h
  | succ fuel ih =>
    cases hsent : s.haveSent[lost]? with
    | none =>
      rw [resendFrom, hsent] at h
      exact h
    | some request =>
      cases hcontainer : (s.requests request).isSentContainer with
      | true =>
        rw [resendFrom, hsent] at h
        dsimp only at h
        rw [if_pos hcontainer] at h
        have hfold : ∀ (ids : List MsgId) (t : SessionData),
            (ids.foldl (SessionData.resendFrom now fuel true) t).haveSent[msgId]? = some ref →
              t.haveSent[msgId]? = some ref := by
          intro ids
          induction ids with
          | nil => exact fun _ => id
          | cons id ids ih' => exact fun t ht => ih (ih' _ ht)
        exact (getElem?_of_erase (hfold _ _ h)).2
      | false =>
        cases hstate : (s.requests request).isStateRequest with
        | true =>
          rw [resendFrom, hsent] at h
          dsimp only at h
          rw [if_neg (by simp [hcontainer]), if_neg (by simp [hstate])] at h
          exact (getElem?_of_erase h).2
        | false =>
          rw [resendFrom_request hsent hcontainer hstate] at h
          exact (getElem?_of_erase h).2

theorem resendMany_haveSent {now : ℤ} {msgIds : List MsgId} {forceContainer : Bool}
    (h : (s.resendMany now msgIds forceContainer).haveSent[msgId]? = some ref) :
    s.haveSent[msgId]? = some ref := by
  induction msgIds generalizing s with
  | nil => exact h
  | cons lost msgIds ih => exact resendFrom_haveSent (ih h)

theorem Kept.checkRequestsByTimer (h : Kept clock awaiting s) (ms unixtime : ℤ) :
    Kept clock awaiting (s.checkRequestsByTimer ms unixtime) := by
  have hms : ∀ x ∈ (s.haveSent.toList.filter fun x => isOld ms (s.requests x.2)).filter
      fun x => !decide ((s.requests x.2).messageSize < kResendThreshold), 0 < ms := by
    intro x hx
    have hold := (List.mem_filter.mp (List.mem_filter.mp hx).1).2
    rw [isOld, Bool.decide_and, Bool.and_eq_true, decide_eq_true_eq, decide_eq_true_eq,
      kCheckResendTimeout] at hold
    omega
  obtain ⟨hstate, hsent⟩ := h.requestStates hms
  refine (hstate.resendMany ms _ false).forgetAll fun m hm k ref hk hm' => ?_
  have hm' := hsent ▸ resendMany_haveSent hm'
  obtain ⟨x, hx, rfl⟩ := List.mem_map.mp hm
  obtain ⟨hmem, hforgotten⟩ := List.mem_filter.mp hx
  obtain rfl := Option.some.inj
    ((Std.TreeMap.mem_toList_iff_getElem?_eq_some.mp hmem).symm.trans hm')
  refine h.not_awaited_of_date hm' ?_ k hk
  rw [isForgotten, Bool.decide_and, Bool.and_eq_true, decide_eq_true_eq] at hforgotten
  exact hforgotten.1

end SessionData

end Bettergram.Mtproto
