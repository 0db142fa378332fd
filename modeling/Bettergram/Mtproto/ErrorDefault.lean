import Bettergram.Mtproto.InstancePlaces

/-! # A handled error leaves the request scheduled

Most ways to handle an error end with the request in the queue of a session.
One that waits for another request or for an authorization depends on what that
one does.
-/

namespace Bettergram.Mtproto.Instance
open Foundation

variable {requestId : RequestId} {error : RPCError} {now later : Time} {s s' : Instance}

/-- The dc an authorization is carried over to for a request. -/
def authDc (requestId : RequestId) (s : Instance) : DcId := bareDcId (s.dcWithShift requestId).abs

/-- What a request is to come after is in another dc, waits for an authorization that is on its
way, or is delayed. -/
def WaitsWith (requestId : RequestId) (s : Instance) : Prop :=
  ∀ request after, s.requestMap[requestId]? = some request → request.after = some after →
    s.dcWithShift requestId = s.dcWithShift after →
    if after ∈ s.waiters (s.authDc requestId) then s.AuthInFlight (s.authDc requestId)
    else s.Delayed after

/-- The authorization that others wait for is on its way. -/
def AuthStarts (dcId : DcId) (s : Instance) : Prop :=
  s.waiters dcId = [] ∨ s.AuthInFlight dcId

/-- What the handling of an error relies on. -/
def Reschedules (requestId : RequestId) (error : RPCError) (s : Instance) : Prop :=
  if error.migrateDc?.isSome || error.isInternal || error.floodWait?.isSome then True
  else if s.needsAuth requestId error then s.AuthStarts (s.authDc requestId)
  else if error.type = "MSG_WAIT_FAILED" then s.WaitsWith requestId
  else True

/-- Who has a callback is known, and the next id is not in use. -/
structure WellFormed (s : Instance) : Prop where
  registered : ∀ x, x ∈ s.parserMap → s.Registered x
  freshHandler : s.nextRequestId ∉ s.parserMap
  freshExport : s.nextRequestId ∉ s.authExportRequests

theorem dcWithShift_eq {dc : ShiftedDcId} (h : s.requestsByDc[requestId]? = some dc) :
    s.dcWithShift requestId = dc := by
  rw [dcWithShift, h, Option.getD_some]

theorem AuthFor.handled {dcId : DcId} {x : RequestId} (h : s.AuthFor dcId x) : x ∈ s.parserMap := by
  obtain ⟨_, h, -⟩ | ⟨_, h, -⟩ := h
  · exact (mem_iff_exists _ _).mpr ⟨_, h⟩
  · exact (mem_iff_exists _ _).mpr ⟨_, h⟩

/-! ## Sent again -/

theorem moveTo_scheduled {newdc registered : ShiftedDcId}
    (h : s.moveTo requestId newdc registered = some (s', true)) : s'.InSendQueue requestId := by
  rw [moveTo] at h
  split_ifs at h
  · obtain ⟨⟨t, session⟩, -, h⟩ := Option.map_eq_some_iff.mp h
    obtain rfl := (Prod.mk.inj h).1
    exact ((queues_sendPrepared session requestId _).toSend requestId).mpr (.inr rfl)
  · simp at h

theorem migrate_scheduled {newdc : Int32} (h : s.migrate requestId newdc = some (s', true)) :
    s'.InSendQueue requestId := by
  simp only [migrate] at h
  split_ifs at h
  · simp at h
  · exact moveTo_scheduled h
  · exact moveTo_scheduled h

theorem resendWithLayer_scheduled {request : StoredRequest} {dc : ShiftedDcId} {handled : Bool}
    (h : s.resendWithLayer requestId request dc = some (s', handled)) :
    s'.InSendQueue requestId := by
  obtain ⟨⟨t, session⟩, -, h⟩ := Option.map_eq_some_iff.mp h
  obtain rfl := (Prod.mk.inj h).1
  exact ((queues_sendPrepared session requestId _).toSend requestId).mpr (.inr rfl)

theorem initAgain_scheduled (h : s.initAgain requestId = some (s', true)) :
    s'.InSendQueue requestId := by
  rw [initAgain] at h
  cases hrequest : s.requestMap[requestId]? with
  | none => simp [hrequest] at h
  | some request =>
    simp only [hrequest] at h
    split_ifs at h
    · simp at h
    · exact resendWithLayer_scheduled h

/-! ## Delayed -/

theorem delaySecs_same (requestId : RequestId) (error : RPCError) (s : Instance) :
    (s.delaySecs requestId error).2 =
      { s with requestsDelays := (s.delaySecs requestId error).2.requestsDelays } := by
  rw [delaySecs]
  split_ifs
  · split
    · split_ifs <;> rfl
    · rfl
  · rfl

/-- What the checks before leave of the state, and the queue of delayed requests then. -/
theorem delay_cases (h : s.delay requestId error now later = some (s', true)) :
    ∃ delays, { s with requestsDelays := delays } = s' ∧ s.Delayed requestId ∨
      ∃ l, (∀ x, x ∈ l.map Prod.fst ↔ x = requestId ∨ s.Delayed x) ∧
        Checked l { s with requestsDelays := delays } s' := by
  rw [delay] at h
  split_ifs at h
  · simp at h
  · have hsame := delaySecs_same requestId error s
    refine ⟨(s.delaySecs requestId error).2.requestsDelays, ?_⟩
    rw [← hsame]
    have hdelayed : (s.delaySecs requestId error).2.delayedRequests = s.delayedRequests := by
      rw [hsame]
    simp only [hdelayed] at h
    split at h
    · rename_i hnone
      obtain rfl := (Prod.mk.inj (Option.some_injective _ h)).1
      exact .inl ⟨rfl, insertDelayed_none hnone⟩
    · rename_i l hsome
      obtain ⟨t, ht, h⟩ := Option.map_eq_some_iff.mp h
      obtain rfl := (Prod.mk.inj h).1
      refine .inr ⟨l, fun x => ?_, ?_⟩
      · have hmem := insertDelayed_mem hsome
        simp only [Delayed, List.mem_map, hmem]
        constructor
        · rintro ⟨e, rfl | he, rfl⟩
          · exact .inl rfl
          · exact .inr ⟨e, he, rfl⟩
        · rintro (rfl | ⟨e, he, rfl⟩)
          · exact ⟨_, .inl rfl, rfl⟩
          · exact ⟨e, .inr he, rfl⟩
      · have hchecked := checkDelayed_checked ht
        exact ⟨hchecked.same, hchecked.left, hchecked.haveSent⟩

theorem delay_scheduled (hregistered : s.Registered requestId)
    (h : s.delay requestId error now later = some (s', true)) : s'.Scheduled requestId := by
  obtain ⟨delays, ⟨rfl, hdelayed⟩ | ⟨l, hl, hchecked⟩⟩ := delay_cases h
  · exact .inr (.inl hdelayed)
  · obtain hx | hx := hchecked.scheduled ((hl requestId).mpr (.inl rfl))
      hregistered
    · exact .inl hx
    · exact .inr (.inl hx)

/-! ## Waiting for an authorization -/

theorem scheduled_markGuest {x : RequestId} (guest : Bool) :
    (s.markGuest x guest).Scheduled requestId ↔ s.Scheduled requestId := by
  rw [markGuest]
  split_ifs
  · exact Iff.rfl
  · exact Iff.rfl

theorem scheduled_push (newdc : DcId) :
    (s.setWaiters newdc (s.waiters newdc ++ [requestId])).Scheduled requestId ↔
      s.Scheduled requestId ∨ s.AuthInFlight newdc := by
  simp only [Scheduled, waiters_setWaiters, or_assoc]
  refine or_congr_right (or_congr_right ⟨?_, ?_⟩)
  · rintro ⟨dcId, hx, hauth⟩
    split_ifs at hx with hdc
    · exact .inr (hdc ▸ hauth)
    · exact .inl ⟨dcId, hx, hauth⟩
  · rintro (⟨dcId, hx, hauth⟩ | hauth)
    · refine ⟨dcId, ?_, hauth⟩
      split_ifs with hdc
      · exact List.mem_append_left _ (hdc ▸ hx)
      · exact hx
    · exact ⟨newdc, by simp, hauth⟩

/-- A new request with a callback of its own is in the queue of a session. -/
theorem send_spec {callbacks : ResponseHandler} {shiftedDcId : ShiftedDcId} {after x : RequestId}
    (hfresh : s.nextRequestId ∉ s.parserMap)
    (h : s.send (some callbacks) shiftedDcId after = some (s', x)) :
    x = s.nextRequestId ∧ s'.parserMap[x]? = some callbacks ∧ s'.InSendQueue x ∧
      s'.authExportRequests = s.authExportRequests ∧ s'.authWaiters = s.authWaiters := by
  obtain ⟨t, ht, h⟩ := Option.map_eq_some_iff.mp h
  obtain ⟨rfl, rfl⟩ := Prod.mk.inj h
  obtain ⟨⟨u, session⟩, hu, rfl⟩ := Option.map_eq_some_iff.mp ht
  have hsame := (queues_getSession hu).same
  refine ⟨rfl, ?_, ?_, ?_, ?_⟩
  · change (u.parserMap.insertIfNew s.nextRequestId callbacks)[s.nextRequestId]? = some callbacks
    have hparser : u.parserMap = s.parserMap := by rw [hsame]
    rw [hparser, insertIfNew_getElem?, (notMem_iff_none _ _).mp hfresh, if_pos rfl, Option.none_or]
  · exact ((queues_sendPrepared session _ _).toSend _).mpr (.inr rfl)
  · change u.authExportRequests = _
    rw [hsame]
  · change u.authWaiters = _
    rw [hsame]

/-- The export that is started is for the right dc. -/
theorem startExport_authInFlight {newdc : DcId} {target : ShiftedDcId} (hs : s.WellFormed)
    (hwaiters : s.waiters newdc = []) (htarget : bareDcId target = newdc)
    (h : s.startExport newdc target = some s') : s'.AuthInFlight newdc := by
  rw [startExport, if_pos hwaiters] at h
  obtain ⟨⟨t, x⟩, ht, rfl⟩ := Option.map_eq_some_iff.mp h
  obtain ⟨rfl, hparser, hqueue, hexports, -⟩ := send_spec hs.freshHandler ht
  refine ⟨s.nextRequestId, .inl ⟨target, hparser, ?_, htarget⟩, .inl hqueue⟩
  change (t.authExportRequests.insertIfNew s.nextRequestId target)[s.nextRequestId]? = some target
  rw [hexports, insertIfNew_getElem?, (notMem_iff_none _ _).mp hs.freshExport, if_pos rfl,
    Option.none_or]

theorem waitForAuth_scheduled_iff (hs : s.WellFormed)
    (h : s.waitForAuth requestId error = some (s', true)) :
    s'.Scheduled requestId ↔ s.Scheduled requestId ∨ s.AuthStarts (s.authDc requestId) := by
  rw [waitForAuth] at h
  split_ifs at h
  · simp at h
  · simp at h
  · obtain ⟨t, ht, h⟩ := Option.map_eq_some_iff.mp h
    obtain rfl := (Prod.mk.inj h).1
    rw [scheduled_markGuest, scheduled_push]
    by_cases hwaiters : s.waiters (s.authDc requestId) = []
    · have hauth := startExport_authInFlight hs hwaiters rfl ht
      exact ⟨fun _ => .inr (.inl hwaiters), fun _ => .inr hauth⟩
    · rw [startExport, if_neg (show s.waiters (bareDcId _) ≠ [] from hwaiters)] at ht
      obtain rfl := Option.some_injective _ ht
      rw [AuthStarts, or_iff_right hwaiters]
      exact Iff.rfl

/-! ## Waiting with another request -/

/-- The requests with callbacks do not get lost in the check of the delayed ones. -/
theorem Checked.authInFlight_iff (hregistered : ∀ x, x ∈ s.parserMap → s.Registered x)
    (h : Checked s.delayedRequests s s') (dcId : DcId) :
    s'.AuthInFlight dcId ↔ s.AuthInFlight dcId := by
  constructor
  · rintro ⟨x, hauth, hx⟩
    exact ⟨x, (h.authFor dcId x).mp hauth, h.of_travels hx⟩
  · rintro ⟨x, hauth, hx⟩
    exact ⟨x, (h.authFor dcId x).mpr hauth, h.travels hx (hregistered x hauth.handled)⟩

theorem Checked.scheduled_iff (hs : s.WellFormed) (hregistered : s.Registered requestId)
    (h : Checked s.delayedRequests s s') : s'.Scheduled requestId ↔ s.Scheduled requestId := by
  have hwait : (∃ dcId, requestId ∈ s'.waiters dcId ∧ s'.AuthInFlight dcId) ↔
      ∃ dcId, requestId ∈ s.waiters dcId ∧ s.AuthInFlight dcId :=
    exists_congr fun dcId => by rw [h.waiters_eq, h.authInFlight_iff hs.registered]
  rw [Scheduled, hwait, Scheduled, ← or_assoc, ← or_assoc]
  refine or_congr_left ⟨h.of_scheduled, ?_⟩
  rintro (hx | hx)
  · exact .inl (h.inSendQueue_of hx)
  · exact h.scheduled hx hregistered

theorem waitWith_scheduled_iff {after : RequestId} {newdc : DcId} (hs : s.WellFormed)
    (hregistered : s.Registered requestId)
    (h : s.waitWith requestId after newdc later = some s') :
    s'.Scheduled requestId ↔ s.Scheduled requestId ∨
      if after ∈ s.waiters newdc then s.AuthInFlight newdc else s.Delayed after := by
  rw [waitWith] at h
  split_ifs at h with hwaiters hmem
  · obtain rfl := Option.some_injective _ h
    rw [if_pos hwaiters]
    rw [scheduled_markGuest]
    refine ⟨.inl, Or.rec id fun hauth => ?_⟩
    exact .inr (.inr ⟨newdc, hmem, hauth⟩)
  · obtain rfl := Option.some_injective _ h
    rw [if_pos hwaiters]
    rw [scheduled_markGuest]
    exact scheduled_push newdc
  · rw [if_neg hwaiters]
    cases hinsert : insertBefore requestId after s.delayedRequests with
    | none =>
      rw [hinsert] at h
      obtain rfl := Option.some_injective _ h
      have hdelayed : s.Scheduled requestId := .inr (.inl (insertBefore_none hinsert))
      exact ⟨fun _ => .inl hdelayed, fun _ => hdelayed⟩
    | some l =>
      rw [hinsert] at h
      have hl := insertBefore_mem hinsert
      have hchecked := checkDelayed_checked h
      by_cases hafter : s.Delayed after
      · have hx : requestId ∈ l.map Prod.fst := (hl requestId).mpr (.inr ⟨rfl, hafter⟩)
        refine ⟨fun _ => .inr hafter, fun _ => ?_⟩
        obtain hx | hx := hchecked.scheduled hx hregistered
        · exact .inl hx
        · exact .inr (.inl hx)
      · rw [or_iff_left hafter]
        have hwf : ({ s with delayedRequests := l } : Instance).WellFormed :=
          ⟨hs.registered, hs.freshHandler, hs.freshExport⟩
        have hsame : ∀ x, ({ s with delayedRequests := l } : Instance).Delayed x ↔ s.Delayed x :=
          fun x => (hl x).trans (or_iff_left fun hx => hafter hx.2)
        rw [Checked.scheduled_iff hwf hregistered hchecked]
        simp only [Scheduled, AuthInFlight, Travels, hsame]
        exact Iff.rfl

theorem waitFailed_scheduled_iff (hs : s.WellFormed) (hregistered : s.Registered requestId)
    (h : s.waitFailed requestId later = some (s', true)) :
    s'.Scheduled requestId ↔ s.Scheduled requestId ∨ s.WaitsWith requestId := by
  rw [waitFailed] at h
  cases hrequest : s.requestMap[requestId]? with
  | none => simp [hrequest] at h
  | some request =>
    simp only [hrequest] at h
    cases hafter : request.after with
    | none => simp [hafter] at h
    | some after =>
      simp only [hafter] at h
      cases hdc : s.requestsByDc[requestId]? with
      | none => simp [hdc] at h
      | some dc =>
        cases hafterDc : s.requestsByDc[after]? with
        | none => simp [hdc, hafterDc] at h
        | some afterDc =>
          simp only [hdc, hafterDc] at h
          have hwaits : s.WaitsWith requestId ↔ (dc = afterDc →
              if after ∈ s.waiters (bareDcId dc.abs) then s.AuthInFlight (bareDcId dc.abs)
              else s.Delayed after) := by
            rw [WaitsWith, authDc, dcWithShift_eq hdc, hrequest]
            constructor
            · intro hall hsame
              exact hall request after rfl hafter (hsame.trans (dcWithShift_eq hafterDc).symm)
            · intro hall request' after' hrequest' hafter' hsame
              obtain rfl := Option.some_injective _ hrequest'
              obtain rfl := Option.some_injective _ (hafter.symm.trans hafter')
              exact hall (hsame.trans (dcWithShift_eq hafterDc))
          rw [hwaits]
          by_cases hzero : dc = 0
          · simp [hzero] at h
          rw [if_neg hzero] at h
          by_cases hsame : dc = afterDc
          · rw [if_neg (not_not.mpr hsame)] at h
            obtain ⟨t, ht, h⟩ := Option.map_eq_some_iff.mp h
            obtain rfl := (Prod.mk.inj h).1
            rw [waitWith_scheduled_iff hs hregistered ht, forall_prop_of_true hsame]
          · rw [if_pos hsame] at h
            have hqueue := resendWithLayer_scheduled h
            exact ⟨fun _ => .inr fun heq => absurd heq hsame, fun _ => .inl hqueue⟩

/-! ## All errors -/

/-- A request whose error was handled is scheduled to be sent again when the handling can rely on
what the request is made to wait for. -/
theorem onErrorDefault_scheduled_iff (hs : s.WellFormed) (hregistered : s.Registered requestId)
    (h : s.onErrorDefault requestId error now later = some (s', true)) :
    s'.Scheduled requestId ↔ s.Scheduled requestId ∨ s.Reschedules requestId error := by
  rw [onErrorDefault] at h
  rw [Reschedules]
  cases hmigrate : error.migrateDc? with
  | some newdc =>
    rw [hmigrate] at h
    have hqueue := migrate_scheduled h
    exact ⟨fun _ => .inr (by simp), fun _ => .inl hqueue⟩
  | none =>
    rw [hmigrate] at h
    simp only [Option.isSome_none, Bool.false_or]
    dsimp only at h
    by_cases hdelay : error.isInternal || error.floodWait?.isSome
    · rw [if_pos hdelay] at h ⊢
      have hscheduled := delay_scheduled hregistered h
      exact ⟨fun _ => .inr trivial, fun _ => hscheduled⟩
    rw [if_neg hdelay] at h ⊢
    by_cases hauth : s.needsAuth requestId error
    · rw [if_pos hauth] at h ⊢
      exact waitForAuth_scheduled_iff hs h
    rw [if_neg hauth] at h ⊢
    by_cases hinit : error.type = "CONNECTION_NOT_INITED" ∨ error.type = "CONNECTION_LAYER_INVALID"
    · rw [if_pos hinit] at h
      have hqueue := initAgain_scheduled h
      have hne : error.type ≠ "MSG_WAIT_FAILED" := by
        obtain heq | heq := hinit <;> simp [heq]
      rw [if_neg hne]
      exact ⟨fun _ => .inr trivial, fun _ => .inl hqueue⟩
    rw [if_neg hinit] at h
    by_cases hwait : error.type = "MSG_WAIT_FAILED"
    · rw [if_pos hwait] at h ⊢
      exact waitFailed_scheduled_iff hs hregistered h
    · rw [if_neg hwait] at h
      split_ifs at h <;> simp at h

/-- Request 7 is to come after request 5, which waits for its answer. -/
def twoRequests : Instance where
  mainDcId := 2
  mainSession := some 2
  sessions := Std.TreeMap.empty.insert 2 { haveSent := Std.TreeSet.empty.insert 5 }
  requestsByDc := (Std.TreeMap.empty.insert 5 (-2)).insert 7 (-2)
  parserMap := Std.TreeMap.empty.insert 5 (.caller fun _ => false)
  requestMap := (Std.TreeMap.empty.insert 5 {}).insert 7 { after := some 5 }
  globalAtomicRequestId := 7

theorem twoRequests_wellFormed : twoRequests.WellFormed where
  registered := fun x hx => by
    obtain hx | hx := Std.TreeMap.mem_insert.mp hx
    · rw [← Std.LawfulEqCmp.compare_eq_iff_eq.mp hx]
      exact ⟨by decide, by decide⟩
    · exact absurd hx (by simp)
  freshHandler := by decide
  freshExport := by decide

theorem twoRequests_registered : twoRequests.Registered 7 := ⟨by decide, by decide⟩

theorem twoRequests_not_scheduled : ¬twoRequests.Scheduled 7 := by
  rintro (⟨session, queue, hqueue, hx⟩ | hx | ⟨dcId, hx, -⟩)
  · change (Std.TreeMap.empty.insert 2 _)[session]? = some queue at hqueue
    rw [insert_getElem?] at hqueue
    split_ifs at hqueue
    · obtain rfl := Option.some_injective _ hqueue
      exact absurd hx (by simp)
    · exact absurd hqueue (by simp)
  · exact absurd hx (by simp [Delayed, twoRequests])
  · exact absurd hx (by simp [waiters, twoRequests])

/-- What the request is to come after is sent again already: nothing sends the request. -/
theorem onErrorDefault_strands :
    twoRequests.WellFormed ∧ twoRequests.Registered 7 ∧
      twoRequests.onErrorDefault 7 ⟨400, "MSG_WAIT_FAILED", by decide⟩ 0 0 =
        some (twoRequests, true) ∧
      ¬twoRequests.Scheduled 7 :=
  ⟨twoRequests_wellFormed, twoRequests_registered, rfl, twoRequests_not_scheduled⟩

def serverError : RPCError := ⟨500, "INTERNAL_SERVER_ERROR", by decide⟩

/-- The state after an error of the server. -/
def twoRequestsDelayed : Instance :=
  { twoRequests with
    requestsDelays := Std.TreeMap.empty.insert 7 1
    delayedRequests := [(7, 1010)] }

theorem onErrorDefault_scheduled_iff_delay :
    twoRequestsDelayed.Scheduled 7 ↔
      twoRequests.Scheduled 7 ∨ twoRequests.Reschedules 7 serverError := by
  have hhandled : twoRequests.onErrorDefault 7 serverError 0 0 = some (twoRequestsDelayed, true) :=
    rfl
  exact onErrorDefault_scheduled_iff twoRequests_wellFormed twoRequests_registered hhandled

end Bettergram.Mtproto.Instance
