import Bettergram.Mtproto.AuthWaiters

/-! # The waiters after a step

What the answer to a request leaves: of a caller's request, of an export
or an import that got an error, of an export that starts the import, and of
the import that sends all who wait.
-/

namespace Bettergram.Mtproto.Instance
open Foundation

variable {s s' t u v : Instance} {requestId : RequestId} {error : RPCError} {now later : Time}

/-- The caller of the request gets its answer or gave it up. -/
def Event.Settles (x : RequestId) : Event → Prop
  | .answered _ requestId _ _ _ => requestId = x
  | .cancel requestId => requestId = x
  | _ => False

structure StepKeeps (event : Event) (s s' : Instance) : Prop where
  carried : s'.Carried
  handed : ∀ dcId x, x ∈ s.waiters dcId → s.Registered x → x ∈ s'.waiters dcId ∨ s'.InSendQueue x
  registered : ∀ x, ¬event.Settles x → s.Registered x → s'.Registered x

/-- The callbacks are out of the map while they are called. -/
structure Called (requestId : RequestId) (s t : Instance) : Prop where
  grows : Grows (· ≠ requestId) s.nextRequestId s t
  out : requestId ∉ t.parserMap
  kept : ∀ x, x ∈ t.parserMap → x ∈ s.parserMap
  next : t.nextRequestId = s.nextRequestId
  stored : t.requestMap = s.requestMap
  dcs : t.requestsByDc = s.requestsByDc
  exports : t.authExportRequests = s.authExportRequests
  waiters : t.authWaiters = s.authWaiters

namespace Called

variable (h : Called requestId s t)
include h

theorem registered (x : RequestId) : t.Registered x ↔ s.Registered x := by
  rw [Registered, Registered, h.stored, h.dcs]

theorem waiters_eq (dcId : DcId) : t.waiters dcId = s.waiters dcId := waiters_congr h.waiters dcId

theorem nextIsFresh (hfresh : s.NextIsFresh) : t.NextIsFresh where
  notZero := h.next ▸ hfresh.notZero
  handler := fun hmem => hfresh.handler (h.next ▸ h.kept _ hmem)
  exports := by rw [h.next, h.exports]; exact hfresh.exports
  notWaiting := fun dcId => by rw [h.next, h.waiters_eq]; exact hfresh.notWaiting dcId

theorem parserMap_registered (hs : s.Carried) (x : RequestId) (hx : x ∈ t.parserMap) :
    t.Registered x :=
  (h.registered x).mpr (hs.registered x (h.kept x hx)).2

end Called

theorem forget_same (session : ShiftedDcId) (requestId : RequestId) (s : Instance) :
    s.forget session requestId =
      { s with sessions := (s.forget session requestId).sessions } := by
  rw [forget]
  split <;> rfl

theorem called_forget (session : ShiftedDcId) (requestId : RequestId) (s : Instance) :
    Called requestId s { s.forget session requestId with
      parserMap := (s.forget session requestId).parserMap.erase requestId } := by
  have hforget := forget_grows session requestId s.nextRequestId s
  have hsame := forget_same session requestId s
  have hnext := congrArg nextRequestId hsame
  have hstored := congrArg requestMap hsame
  have hdcs := congrArg requestsByDc hsame
  have hexports := congrArg authExportRequests hsame
  refine ⟨hforget.1.trans (grows_eraseHandler requestId _), by simp [Std.TreeMap.mem_erase],
    fun x hx => ?_, hnext, hstored, hdcs, hexports, hforget.2⟩
  have hmem := Std.TreeMap.mem_of_mem_erase hx
  rwa [hsame] at hmem

/-! ## The request of a caller -/

theorem StepKeeps.of_lost (hs : s.Carried) (hfresh : s.NextIsFresh)
    (hgrows : Grows (· ≠ requestId) s.nextRequestId s s')
    (hwaiters : s'.authWaiters = s.authWaiters) (hcaller : ¬s.IsAuth requestId)
    (hlost : requestId ∉ s'.parserMap) {event : Event} (hevent : event.Settles requestId) :
    StepKeeps event s s' where
  carried := hs.of_lost hfresh hgrows hwaiters hcaller hlost
  handed := fun dcId x hx _ => .inl ((waiters_congr hwaiters dcId).symm ▸ hx)
  registered := fun x hx => hgrows.registered x fun heq => hx (heq ▸ hevent)

/-- The request is forgotten with its callbacks. -/
theorem StepKeeps.of_unregister (hs : s.Carried) (hfresh : s.NextIsFresh)
    (hcaller : ¬s.IsAuth requestId) (hcalled : Called requestId s t) {event : Event}
    (hevent : event.Settles requestId) : StepKeeps event s (t.unregisterRequest requestId) :=
  .of_lost hs hfresh (hcalled.grows.trans (grows_unregisterRequest requestId t)) hcalled.waiters
    hcaller hcalled.out hevent

/-- What the rest of the step has to leave after the error was handled. -/
theorem StepKeeps.of_handles (hs : s.Carried) (hfresh : s.NextIsFresh)
    (hcaller : ¬s.IsAuth requestId) (hcalled : Called requestId s t)
    (hhandles : Handles requestId t u) (hgrows : Grows (· ≠ requestId) s.nextRequestId u v)
    (hwaiters : v.authWaiters = u.authWaiters) (hnot : ¬v.IsAuth requestId)
    (hself : requestId ∈ v.parserMap → requestId ≠ 0 ∧ v.Registered requestId)
    (hne : requestId ≠ s.nextRequestId) {event : Event} (hevent : event.Settles requestId) :
    StepKeeps event s v := by
  have hnext := hcalled.next
  have hall : Grows (· ≠ requestId) s.nextRequestId s v :=
    (hcalled.grows.trans (hnext ▸ hhandles.grows)).trans hgrows
  have hout : requestId ∉ u.parserMap := fun hmem =>
    (hhandles.added requestId hmem).elim hcalled.out fun heq => hne (heq.trans hnext)
  have hauth : ∀ dcId, u.AuthInFlight dcId → v.AuthInFlight dcId := by
    rintro dcId ⟨x, hx, htravels⟩
    have hx' : x ≠ requestId := fun heq => hout (heq ▸ hx.handled)
    have hregistered : u.Registered x := by
      obtain hmem | ⟨-, hregistered⟩ := hhandles.grows.added x hx' hx.handled
      · exact hhandles.grows.registered x hx' (hcalled.parserMap_registered hs x hmem)
      · exact hregistered
    exact ⟨x, hgrows.authFor hx' hx, hgrows.travels x hx' hregistered htravels⟩
  have hwait : ∀ dcId, v.waiters dcId = s.waiters dcId ∨
      v.waiters dcId = s.waiters dcId ++ [requestId] ∧
        (s.waiters dcId ≠ [] ∨ dcId ≠ 0 ∧ v.AuthInFlight dcId) := fun dcId => by
    rw [waiters_congr hwaiters, ← hcalled.waiters_eq]
    exact (hhandles.waiters dcId).imp id fun h =>
      ⟨h.1, h.2.imp id fun h => ⟨h.1, hauth dcId h.2⟩⟩
  refine ⟨hs.of_grows hfresh hall (fun x hx => ?_) (fun dcId hx => ?_) (fun dcId x hx => ?_)
    (fun dcId x hx => ?_), fun dcId x hx _ => .inl ?_, fun x hx => ?_⟩
  · obtain rfl := not_not.mp hx
    exact hself
  · obtain heq | ⟨-, h⟩ := hwait dcId
    · exact .inl (heq ▸ hx)
    · exact h
  · obtain rfl := not_not.mp hx
    exact fun h => absurd h.isAuth hcaller
  · by_cases heq : x = requestId
    · exact .inr (heq ▸ hnot)
    · refine .inl ⟨?_, heq⟩
      obtain h | ⟨h, -⟩ := hwait dcId
      · exact h ▸ hx
      · exact (List.mem_append.mp (h ▸ hx)).resolve_right fun hx =>
          heq (List.mem_singleton.mp hx)
  · obtain h | ⟨h, -⟩ := hwait dcId
    · exact h ▸ hx
    · exact h ▸ List.mem_append_left _ hx
  · have hx' : x ≠ requestId := fun heq => hx (heq ▸ hevent)
    exact hall.registered x hx'

/-- Only a caller handles an error that passes. -/
theorem fail_default (t : Instance) (requestId : RequestId) {handler : ResponseHandler}
    (hdefault : error.isDefaultHandledError) :
    ∃ handled, t.fail handler requestId error = (t, handled) ∧
      (handled = true → ∃ onFail, handler = .caller onFail) := by
  cases handler with
  | exportAuth => exact ⟨false, by rw [fail, exportFail, if_pos hdefault], by simp⟩
  | importAuth => exact ⟨false, by rw [fail, importFail, hdefault, Bool.not_true], by simp⟩
  | caller onFail => exact ⟨onFail error, rfl, fun _ => ⟨onFail, rfl⟩⟩

theorem rpcErrorOccured_cases {handler : ResponseHandler} {clean : Bool}
    (h : t.rpcErrorOccured requestId handler error now later = some (u, clean)) :
    (u = t ∧ clean = true ∧ ∃ onFail, handler = .caller onFail) ∨
      t.handleDefault requestId handler error now later = some (u, clean) := by
  rw [rpcErrorOccured] at h
  by_cases hdefault : error.isDefaultHandledError
  · obtain ⟨handled, hfail, hcaller⟩ := fail_default t requestId hdefault
    rw [if_pos hdefault, hfail] at h
    cases handled with
    | true =>
      obtain ⟨rfl, rfl⟩ := Prod.mk.inj (Option.some_injective _ h)
      exact .inl ⟨rfl, rfl, hcaller rfl⟩
    | false => exact .inr h
  · rw [if_neg hdefault] at h
    exact .inr h

theorem handleDefault_cases {handler : ResponseHandler} {clean : Bool}
    (h : t.handleDefault requestId handler error now later = some (u, clean)) :
    ∃ v handled, t.onErrorDefault requestId error now later = some (v, handled) ∧
      (handled = true ∧ u = v ∧ clean = false ∨
        handled = false ∧ u = (v.fail handler requestId error).1 ∧ clean = true) := by
  obtain ⟨⟨v, handled⟩, hv, h⟩ := Option.map_eq_some_iff.mp h
  refine ⟨v, handled, hv, ?_⟩
  cases handled with
  | true =>
    obtain ⟨rfl, rfl⟩ := Prod.mk.inj h
    exact .inl ⟨rfl, rfl, rfl⟩
  | false =>
    obtain ⟨rfl, rfl⟩ := Prod.mk.inj h
    exact .inr ⟨rfl, rfl, rfl⟩

theorem isAuth_insertHandler {handler : ResponseHandler} (hout : requestId ∉ u.parserMap)
    (h : ({ u with parserMap := u.parserMap.insertIfNew requestId handler } :
      Instance).IsAuth requestId) : handler = .exportAuth ∨ handler = .importAuth := by
  have hfind : (u.parserMap.insertIfNew requestId handler)[requestId]? = some handler := by
    rw [insertIfNew_getElem?, (notMem_iff_none _ _).mp hout, if_pos rfl, Option.none_or]
  rw [IsAuth, hfind, Option.some_inj, Option.some_inj] at h
  exact h

/-- A caller's request got an error. -/
theorem StepKeeps.of_callerError {onFail : RPCError → Bool} {clean : Bool} (hs : s.Carried)
    (hfresh : s.NextIsFresh) (hhandler : s.parserMap[requestId]? = some (.caller onFail))
    (hcalled : Called requestId s t) (hdc : s.StaysInDc requestId error) {event : Event}
    (hevent : event.Settles requestId)
    (h : t.rpcErrorOccured requestId (.caller onFail) error now later = some (u, clean)) :
    StepKeeps event s (if clean then u.unregisterRequest requestId
      else { u with parserMap := u.parserMap.insertIfNew requestId (.caller onFail) }) := by
  have hmem : requestId ∈ s.parserMap := (mem_iff_exists _ _).mpr ⟨_, hhandler⟩
  obtain ⟨hzero, hregistered⟩ := hs.registered requestId hmem
  have hne : requestId ≠ s.nextRequestId := fun heq => hfresh.handler (heq ▸ hmem)
  have hcaller : ¬s.IsAuth requestId := by simp [IsAuth, hhandler]
  obtain ⟨rfl, rfl, -⟩ | hdefault := rpcErrorOccured_cases h
  · exact .of_unregister hs hfresh hcaller hcalled hevent
  · obtain ⟨v, handled, hv, hcases⟩ := handleDefault_cases hdefault
    have hdc' : t.StaysInDc requestId error := by
      rwa [StaysInDc, dcWithShift, hcalled.dcs]
    have hhandles : Handles requestId t v := onErrorDefault_handles (hcalled.nextIsFresh hfresh)
      (hcalled.parserMap_registered hs) hdc' hv
    have hout : requestId ∉ v.parserMap := fun hmem =>
      (hhandles.added requestId hmem).elim hcalled.out fun heq => hne (heq.trans hcalled.next)
    obtain ⟨-, rfl, rfl⟩ | ⟨-, rfl, rfl⟩ := hcases
    · refine .of_handles hs hfresh hcaller hcalled hhandles
        (grows_insertHandler requestId (.caller onFail) u) rfl (fun hauth => ?_) (fun _ => ?_)
        hne hevent
      · simpa using isAuth_insertHandler hout hauth
      · exact ⟨hzero, hhandles.registered ((hcalled.registered requestId).mpr hregistered)⟩
    · exact .of_handles hs hfresh hcaller hcalled hhandles (grows_unregisterRequest requestId _)
        rfl (fun hauth => hout hauth.handled) (fun hmem => absurd hmem hout) hne hevent

/-! ## The export and the import -/

/-- An error that passes has the request sent again. -/
theorem StepKeeps.of_sentAgain {handler : ResponseHandler} {clean : Bool} (hs : s.Carried)
    (hfresh : s.NextIsFresh) (hhandler : s.parserMap[requestId]? = some handler)
    (hauth : s.IsAuth requestId) (hcalled : Called requestId s t)
    (hagain : s.SentAgain requestId error) {event : Event} (hevent : event.Settles requestId)
    (h : t.rpcErrorOccured requestId handler error now later = some (u, clean)) :
    StepKeeps event s (if clean then u.unregisterRequest requestId
      else { u with parserMap := u.parserMap.insertIfNew requestId handler }) := by
  have hmem : requestId ∈ s.parserMap := hauth.handled
  obtain ⟨hzero, hregistered⟩ := hs.registered requestId hmem
  have hne : requestId ≠ s.nextRequestId := fun heq => hfresh.handler (heq ▸ hmem)
  have hagain' : t.SentAgain requestId error := by
    rwa [SentAgain, dcWithShift, hcalled.dcs]
  have hregistered' := (hcalled.registered requestId).mpr hregistered
  obtain ⟨-, -, onFail, rfl⟩ | hdefault := rpcErrorOccured_cases h
  · simp [IsAuth, hhandler] at hauth
  obtain ⟨v, handled, hv, hcases⟩ := handleDefault_cases hdefault
  obtain ⟨rfl, htravelling⟩ := hagain'.travelling hzero hregistered' hv
  have hhandles : Handles requestId t v := onErrorDefault_handles (hcalled.nextIsFresh hfresh)
    (hcalled.parserMap_registered hs) (.inl hagain'.not_migrate) hv
  have hout : requestId ∉ v.parserMap := fun hmem =>
    (hhandles.added requestId hmem).elim hcalled.out fun heq => hne (heq.trans hcalled.next)
  obtain ⟨-, rfl, rfl⟩ | ⟨hfalse, -⟩ := hcases
  swap
  · exact absurd hfalse (by simp)
  have hgrows : Grows (· ≠ requestId) s.nextRequestId s
      { u with parserMap := u.parserMap.insertIfNew requestId handler } :=
    (hcalled.grows.trans (hcalled.next ▸ hhandles.grows)).trans
      (grows_insertHandler requestId handler u)
  have hfind : (u.parserMap.insertIfNew requestId handler)[requestId]? = some handler := by
    rw [insertIfNew_getElem?, (notMem_iff_none _ _).mp hout, if_pos rfl, Option.none_or]
  have hwaiters : ∀ dcId, u.waiters dcId = s.waiters dcId :=
    waiters_congr (htravelling.waiters.trans hcalled.waiters)
  refine ⟨hs.of_grows hfresh hgrows (fun x hx => ?_) (fun dcId hx => .inl (hwaiters dcId ▸ hx))
    (fun dcId x hx => ?_) (fun dcId x hx => ?_), fun dcId x hx _ => .inl ?_, fun x hx => ?_⟩
  · obtain rfl := not_not.mp hx
    exact fun _ => ⟨hzero, hhandles.registered hregistered'⟩
  · obtain rfl := not_not.mp hx
    intro hfor _
    refine ⟨x, ?_, htravelling.travels⟩
    have hexports := htravelling.exports.trans hcalled.exports
    have hdcs := htravelling.dcs.trans hcalled.dcs
    rw [AuthFor, hhandler] at hfor
    rw [AuthFor]
    change (∃ target, (u.parserMap.insertIfNew x handler)[x]? = some .exportAuth ∧
      u.authExportRequests[x]? = some target ∧ bareDcId target = dcId) ∨
      ∃ target, (u.parserMap.insertIfNew x handler)[x]? = some .importAuth ∧
        u.requestsByDc[x]? = some target ∧ bareDcId target = dcId
    rwa [hfind, hexports, hdcs]
  · refine .inl ⟨hwaiters dcId ▸ hx, fun heq => ?_⟩
    exact hs.callers dcId x (hwaiters dcId ▸ hx) (heq ▸ hauth)
  · exact (hwaiters dcId).symm ▸ hx
  · have hx' : x ≠ requestId := fun heq => hx (heq ▸ hevent)
    exact hgrows.registered x hx'

theorem bareDcId_zero : bareDcId 0 = 0 := by decide

/-- The import is registered for the dc it is sent to. -/
theorem sendImport_registered {target : ShiftedDcId} {x : RequestId} (htarget : bareDcId target ≠ 0)
    (h : s.send (some .importAuth) target 0 = some (s', x)) :
    s'.requestsByDc[x]? = some target := by
  have hne : target ≠ 0 := fun heq => htarget (heq ▸ bareDcId_zero)
  obtain ⟨t, ht, h⟩ := Option.map_eq_some_iff.mp h
  obtain ⟨rfl, rfl⟩ := Prod.mk.inj h
  obtain ⟨⟨u, session⟩, hu, rfl⟩ := Option.map_eq_some_iff.mp ht
  rw [getSession, if_neg hne, if_neg htarget] at hu
  obtain ⟨rfl, rfl⟩ := Prod.mk.inj (Option.some_injective _ hu)
  refine (insert_getElem? _ _ _ _).trans ?_
  rw [if_pos rfl, if_neg hne]

theorem grows_eraseExport (requestId n : RequestId) (s : Instance) :
    Grows (· ≠ requestId) n s
      { s with authExportRequests := s.authExportRequests.erase requestId } where
  handlers := fun _ _ _ => rfl
  added := fun _ _ hx => .inl hx
  exports := fun x hp _ _ => by rw [erase_getElem?, if_neg hp.symm]
  dcs := fun _ _ _ _ => rfl
  registered := fun _ _ hx => hx
  travels := fun _ _ _ hx => hx

/-- The answer to an export starts the import. -/
theorem StepKeeps.of_exportDone (hs : s.Carried) (hfresh : s.NextIsFresh)
    (hhandler : s.parserMap[requestId]? = some .exportAuth) (hcalled : Called requestId s t)
    {event : Event} (hevent : event.Settles requestId)
    (h : t.exportDone requestId = some u) : StepKeeps event s (u.unregisterRequest requestId) := by
  have hauth : s.IsAuth requestId := .inl hhandler
  have hnext := hcalled.next
  have hmem : requestId ∈ s.parserMap := hauth.handled
  have hne : requestId ≠ s.nextRequestId := fun heq => hfresh.handler (heq ▸ hmem)
  suffices hmain : Grows (· ≠ requestId) s.nextRequestId t u ∧ u.authWaiters = t.authWaiters ∧
      requestId ∉ u.parserMap ∧ ∀ dcId, dcId ≠ 0 → s.AuthFor dcId requestId →
        ∃ x, x ≠ requestId ∧ u.Registered x ∧ u.AuthFor dcId x ∧ u.Travels x by
    obtain ⟨hgrows, hwaiters, hout, hnew⟩ := hmain
    have hunregister := grows_unregisterRequest (n := s.nextRequestId) requestId u
    have hall := (hcalled.grows.trans hgrows).trans hunregister
    have hsame : ∀ dcId, (u.unregisterRequest requestId).waiters dcId = s.waiters dcId :=
      waiters_congr (hwaiters.trans hcalled.waiters)
    refine ⟨hs.of_grows hfresh hall (fun x hx => ?_) (fun dcId hx => .inl (hsame dcId ▸ hx))
      (fun dcId x hx => ?_) (fun dcId x hx => ?_), fun dcId x hx _ => .inl ?_, fun x hx => ?_⟩
    · obtain rfl := not_not.mp hx
      exact fun hmem => absurd hmem hout
    · obtain rfl := not_not.mp hx
      intro hfor hwait
      obtain ⟨hdc, -⟩ := hs.inFlight dcId (hsame dcId ▸ hwait)
      obtain ⟨y, hy, hregistered, hfor, htravels⟩ := hnew dcId hdc hfor
      exact ⟨y, hunregister.authFor hy hfor, hunregister.travels y hy hregistered htravels⟩
    · have hold : x ∈ s.waiters dcId := hsame dcId ▸ hx
      exact .inl ⟨hold, fun heq => hs.callers dcId x hold (heq ▸ hauth)⟩
    · exact (hsame dcId).symm ▸ hx
    · exact hall.registered x fun heq => hx (heq ▸ hevent)
  rw [exportDone] at h
  cases htarget : t.authExportRequests[requestId]? with
  | none =>
    rw [htarget] at h
    obtain rfl := Option.some_injective _ h
    refine ⟨.refl t, rfl, hcalled.out, fun dcId _ hfor => ?_⟩
    rw [AuthFor, ← hcalled.exports, htarget, hhandler] at hfor
    simp at hfor
  | some target =>
    rw [htarget] at h
    obtain ⟨⟨v, x⟩, hv, rfl⟩ := Option.map_eq_some_iff.mp h
    have hfresh' := hcalled.nextIsFresh hfresh
    have hsend : ∀ p, Grows p s.nextRequestId t v := fun p => hnext ▸ send_grows hfresh' hv
    have herase := grows_eraseExport requestId s.nextRequestId v
    obtain ⟨rfl, hparser, hqueue, -, hwaiters⟩ := send_spec hfresh'.handler hv
    have hx : t.nextRequestId ≠ requestId := fun heq => hne (heq.symm.trans hnext)
    refine ⟨(hsend _).trans herase, hwaiters, fun hmem => ?_, fun dcId hdc hfor => ?_⟩
    · obtain hmem | ⟨heq, -⟩ := (hsend fun _ => True).added requestId trivial hmem
      · exact hcalled.out hmem
      · exact hne heq
    · have hdc' : bareDcId target = dcId := by
        rw [AuthFor, hhandler, ← hcalled.exports, htarget] at hfor
        obtain ⟨target', -, heq, hdc'⟩ | ⟨_, habsurd, -⟩ := hfor
        · exact Option.some_injective _ heq ▸ hdc'
        · exact absurd habsurd (by simp)
      have hdcs := sendImport_registered (hdc'.symm ▸ hdc) hv
      have hregistered : v.Registered t.nextRequestId := by
        obtain hmem | ⟨-, hregistered⟩ := (hsend fun _ => True).added t.nextRequestId trivial
          ((mem_iff_exists _ _).mpr ⟨_, hparser⟩)
        · exact absurd hmem hfresh'.handler
        · exact hregistered
      exact ⟨t.nextRequestId, hx, hregistered, .inr ⟨target, hparser, hdcs, hdc'⟩, .inl hqueue⟩

/-- The answer to an import sends all who wait for it. -/
theorem StepKeeps.of_importDone (hs : s.Carried) (hfresh : s.NextIsFresh)
    (hhandler : s.parserMap[requestId]? = some .importAuth) (hcalled : Called requestId s t)
    (hkeeps : KeepsMainDc (bareDcId (s.dcWithShift requestId))
      (s.waiters (bareDcId (s.dcWithShift requestId))) s)
    {event : Event} (hevent : event.Settles requestId)
    (h : t.importDone requestId = some u) : StepKeeps event s (u.unregisterRequest requestId) := by
  have hauth : s.IsAuth requestId := .inr hhandler
  obtain ⟨-, hregistered⟩ := hs.registered requestId hauth.handled
  obtain ⟨dc, hdc⟩ := (mem_iff_exists _ _).mp hregistered.2
  rw [dcWithShift_eq hdc] at hkeeps
  rw [importDone, hcalled.dcs, hdc] at h
  obtain ⟨v, hv, rfl⟩ := Option.map_eq_some_iff.mp h
  have hcongr : KeepsMainDc (bareDcId dc) (t.waiters (bareDcId dc)) t := by
    rw [hcalled.waiters_eq]
    exact hkeeps.congr hcalled.stored hcalled.dcs
  have hresends := resendWaiters_resends hcongr hv
  rw [hcalled.waiters_eq] at hresends
  let w := (v.setWaiters (bareDcId dc) []).unregisterRequest requestId
  have hunregister : Grows (· ≠ requestId) s.nextRequestId v w :=
    (setWaiters_grows (bareDcId dc) []).trans (grows_unregisterRequest requestId _)
  let p := fun x => x ∉ s.waiters (bareDcId dc) ∧ x ≠ requestId
  have hall : Grows p s.nextRequestId s w :=
    ((hcalled.grows.mono fun x hx => hx.2).trans ((hresends.grows _).mono fun x hx => hx.1)).trans
      (hunregister.mono fun x hx => hx.2)
  have hwaiters : ∀ dcId, w.waiters dcId = if bareDcId dc = dcId then [] else s.waiters dcId :=
    fun dcId => by
      have hsame : v.waiters dcId = s.waiters dcId :=
        waiters_congr (hresends.authWaiters.trans hcalled.waiters) dcId
      rw [← hsame]
      exact waiters_setWaiters (bareDcId dc) dcId [] v
  have hparser : ∀ x, x ∈ w.parserMap → x ∈ s.parserMap ∧ x ≠ requestId := fun x hx => by
    have hx : x ∈ t.parserMap := hresends.parserMap ▸ hx
    exact ⟨hcalled.kept x hx, fun heq => hcalled.out (heq ▸ hx)⟩
  have hstays : ∀ x, x ≠ requestId → s.Registered x → w.Registered x := fun x hne hx =>
    hunregister.registered x hne (hresends.registered x ((hcalled.registered x).mpr hx))
  refine ⟨hs.of_grows hfresh hall (fun x _ hx => ?_) (fun dcId hx => .inl ?_)
    (fun dcId x hx hfor hwait => ?_) (fun dcId x hx => .inr fun hauth' => ?_),
    fun dcId x hx hknown => ?_, fun x hx => ?_⟩
  · obtain ⟨hmem, hne⟩ := hparser x hx
    obtain ⟨hzero, hregistered⟩ := hs.registered x hmem
    exact ⟨hzero, hstays x hne hregistered⟩
  · rw [hwaiters] at hx
    split_ifs at hx
    · exact absurd rfl hx
    · exact hx
  · by_cases hself : x = requestId
    · subst hself
      rw [AuthFor, hhandler, hdc] at hfor
      obtain ⟨_, habsurd, -⟩ | ⟨dc', -, heq, hdcId⟩ := hfor
      · exact absurd habsurd (by simp)
      · obtain rfl := Option.some_injective _ heq
        rw [hwaiters, if_pos hdcId] at hwait
        exact absurd rfl hwait
    · have hwaits : x ∈ s.waiters (bareDcId dc) := by
        by_contra hnot
        exact hx ⟨hnot, hself⟩
      exact absurd hfor.isAuth (hs.callers _ x hwaits)
  · obtain ⟨hmem, hne⟩ := hparser x hauth'.handled
    have hold : x ∈ s.waiters dcId := by
      rw [hwaiters] at hx
      split_ifs at hx
      · exact absurd hx (by simp)
      · exact hx
    have hsame : w.parserMap[x]? = s.parserMap[x]? := by
      have ht : t.parserMap[x]? = s.parserMap[x]? := hcalled.grows.handlers x hne hmem
      rw [← ht, ← hresends.parserMap]
      rfl
    exact hs.callers dcId x hold (by rwa [IsAuth, hsame] at hauth')
  · rw [hwaiters]
    by_cases hdcId : bareDcId dc = dcId
    · exact .inr (hresends.resent x (hdcId ▸ hx) ((hcalled.registered x).mpr hknown))
    · exact .inl (by rwa [if_neg hdcId])
  · exact hstays x fun heq => hx (heq ▸ hevent)

/-! ## All steps -/

theorem StepKeeps.of_all {event : Event} (hs : s.Carried) (hfresh : s.NextIsFresh)
    (hgrows : Grows (fun _ => True) s.nextRequestId s s')
    (hwaiters : s'.authWaiters = s.authWaiters) : StepKeeps event s s' where
  carried := hs.of_all hfresh hgrows hwaiters
  handed := fun dcId x hx _ => .inl ((waiters_congr hwaiters dcId).symm ▸ hx)
  registered := fun x _ hx => hgrows.registered x trivial hx

theorem step_keeps {event : Event} (hs : s.Carried) (hfresh : s.NextIsFresh)
    (hhands : s.HandsOn event) (h : s.step event = some s') : StepKeeps event s s' := by
  cases event with
  | request onFail shiftedDcId after =>
    obtain ⟨⟨t, x⟩, ht, rfl⟩ := Option.map_eq_some_iff.mp h
    exact .of_all hs hfresh (send_grows hfresh ht) (send_waiters ht)
  | sends session requestId =>
    obtain rfl := Option.some_injective _ h
    obtain ⟨hgrows, hwaiters⟩ := sendQueued_grows session requestId s.nextRequestId s
    exact .of_all hs hfresh hgrows hwaiters
  | timer now =>
    have hchecked := checkDelayed_checked h
    exact .of_all hs hfresh (hchecked.grows fun x hx => hx) (by rw [hchecked.same])
  | cancel requestId =>
    by_cases hzero : requestId = 0
    · rw [step, cancel, if_pos hzero] at h
      obtain rfl := Option.some_injective _ h
      exact .of_all hs hfresh (.refl s) rfl
    · obtain ⟨hgrows, hwaiters, hlost⟩ := cancel_grows hzero h
      exact .of_lost hs hfresh hgrows hwaiters hhands hlost (by rw [Event.Settles])
  | answered session requestId response now later =>
    have hcalled := called_forget session requestId s
    have hforget := congrArg parserMap (forget_same session requestId s)
    have hsettles : (Event.answered session requestId response now later).Settles requestId := rfl
    rw [step, execCallback] at h
    cases hhandler : s.parserMap[requestId]? with
    | none =>
      have hfind : (s.forget session requestId).parserMap[requestId]? = none := by
        rw [hforget]
        exact hhandler
      rw [hfind] at h
      obtain rfl := Option.some_injective _ h
      obtain ⟨hgrows, hwaiters⟩ := forget_grows session requestId s.nextRequestId s
      exact .of_lost hs hfresh (hgrows.trans (grows_unregisterRequest requestId _)) hwaiters
        (by simp [IsAuth, hhandler]) ((notMem_iff_none _ _).mpr hfind) hsettles
    | some handler =>
      have hfind : (s.forget session requestId).parserMap[requestId]? = some handler := by
        rw [hforget]
        exact hhandler
      rw [hfind] at h
      cases response with
      | result =>
        obtain ⟨u, hu, rfl⟩ := Option.map_eq_some_iff.mp h
        cases handler with
        | exportAuth => exact .of_exportDone hs hfresh hhandler hcalled hsettles hu
        | importAuth => exact .of_importDone hs hfresh hhandler hcalled (hhands hhandler) hsettles hu
        | caller onFail =>
          obtain rfl := Option.some_injective _ hu
          exact .of_unregister hs hfresh (by simp [IsAuth, hhandler]) hcalled hsettles
      | error error =>
        obtain ⟨⟨u, clean⟩, hu, rfl⟩ := Option.map_eq_some_iff.mp h
        by_cases hauth : s.IsAuth requestId
        · exact .of_sentAgain hs hfresh hhandler hauth hcalled (hhands.1 hauth) hsettles hu
        · cases handler with
          | exportAuth => exact absurd (.inl hhandler) hauth
          | importAuth => exact absurd (.inr hhandler) hauth
          | caller onFail =>
            exact .of_callerError hs hfresh hhandler hcalled (hhands.2 hauth) hsettles hu

end Bettergram.Mtproto.Instance
