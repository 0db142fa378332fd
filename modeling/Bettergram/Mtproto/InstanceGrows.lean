import Bettergram.Mtproto.AuthImport
import Bettergram.Mtproto.ErrorDefault

/-! # What a step does not take away

The other requests of an instance keep their callbacks, their data centers and
their place, unless the main data center is changed.
-/

namespace Bettergram.Mtproto.Instance
open Foundation

variable {p : RequestId → Prop} {n : RequestId} {s s' s'' : Instance} {requestId : RequestId}
  {error : RPCError} {now later : Time}

/-- The requests with the property keep what they have, and one may get a callback. -/
structure Grows (p : RequestId → Prop) (n : RequestId) (s s' : Instance) : Prop where
  handlers : ∀ x, p x → x ∈ s.parserMap → s'.parserMap[x]? = s.parserMap[x]?
  added : ∀ x, p x → x ∈ s'.parserMap → x ∈ s.parserMap ∨ x = n ∧ s'.Registered x
  exports : ∀ x, p x → x ∈ s.parserMap → x ∈ s.authExportRequests →
    s'.authExportRequests[x]? = s.authExportRequests[x]?
  dcs : ∀ x, p x → x ∈ s.parserMap → x ∈ s.requestsByDc → s'.requestsByDc[x]? = s.requestsByDc[x]?
  registered : ∀ x, p x → s.Registered x → s'.Registered x
  travels : ∀ x, p x → s.Registered x → s.Travels x → s'.Travels x

namespace Grows

theorem refl (s : Instance) : Grows p n s s :=
  ⟨fun _ _ _ => rfl, fun _ _ hx => .inl hx, fun _ _ _ _ => rfl, fun _ _ _ _ => rfl,
    fun _ _ hx => hx, fun _ _ _ hx => hx⟩

theorem mem_parserMap (h : Grows p n s s') {x : RequestId} (hp : p x) (hx : x ∈ s.parserMap) :
    x ∈ s'.parserMap := by
  obtain ⟨handler, hhandler⟩ := (mem_iff_exists _ _).mp hx
  exact (mem_iff_exists _ _).mpr ⟨handler, (h.handlers x hp hx).trans hhandler⟩

theorem trans (h : Grows p n s s') (h' : Grows p n s' s'') : Grows p n s s'' where
  handlers := fun x hp hx =>
    (h'.handlers x hp (h.mem_parserMap hp hx)).trans (h.handlers x hp hx)
  added := fun x hp hx => by
    obtain hx | hx := h'.added x hp hx
    · exact (h.added x hp hx).imp id fun hnew => ⟨hnew.1, h'.registered x hp hnew.2⟩
    · exact .inr hx
  exports := fun x hp hx hexports => by
    have hkept := h.exports x hp hx hexports
    obtain ⟨target, htarget⟩ := (mem_iff_exists _ _).mp hexports
    have hmem := (mem_iff_exists _ _).mpr ⟨target, hkept.trans htarget⟩
    exact (h'.exports x hp (h.mem_parserMap hp hx) hmem).trans hkept
  dcs := fun x hp hx hdcs => by
    have hkept := h.dcs x hp hx hdcs
    obtain ⟨dc, hdc⟩ := (mem_iff_exists _ _).mp hdcs
    have hmem := (mem_iff_exists _ _).mpr ⟨dc, hkept.trans hdc⟩
    exact (h'.dcs x hp (h.mem_parserMap hp hx) hmem).trans hkept
  registered := fun x hp hx => h'.registered x hp (h.registered x hp hx)
  travels := fun x hp hx htravels =>
    h'.travels x hp (h.registered x hp hx) (h.travels x hp hx htravels)

theorem mono {q : RequestId → Prop} (h : Grows p n s s') (hq : ∀ x, q x → p x) : Grows q n s s' :=
  ⟨fun x hx => h.handlers x (hq x hx), fun x hx => h.added x (hq x hx),
    fun x hx => h.exports x (hq x hx), fun x hx => h.dcs x (hq x hx),
    fun x hx => h.registered x (hq x hx), fun x hx => h.travels x (hq x hx)⟩

theorem authFor (h : Grows p n s s') {x : RequestId} (hp : p x) {dcId : DcId}
    (hx : s.AuthFor dcId x) : s'.AuthFor dcId x := by
  have hmem := hx.handled
  obtain ⟨target, hhandler, htarget, hdc⟩ | ⟨target, hhandler, htarget, hdc⟩ := hx
  · have hexports := h.exports x hp hmem ((mem_iff_exists _ _).mpr ⟨target, htarget⟩)
    exact .inl ⟨target, (h.handlers x hp hmem).trans hhandler, hexports.trans htarget, hdc⟩
  · have hdcs := h.dcs x hp hmem ((mem_iff_exists _ _).mpr ⟨target, htarget⟩)
    exact .inr ⟨target, (h.handlers x hp hmem).trans hhandler, hdcs.trans htarget, hdc⟩

/-- Where the maps are the same the places are left. -/
theorem of_same (hparser : s'.parserMap = s.parserMap)
    (hexports : s'.authExportRequests = s.authExportRequests)
    (hdcs : s'.requestsByDc = s.requestsByDc) (hstored : s'.requestMap = s.requestMap)
    (htravels : ∀ x, p x → s.Registered x → s.Travels x → s'.Travels x) : Grows p n s s' where
  handlers := fun x _ _ => by rw [hparser]
  added := fun x _ hx => .inl (hparser ▸ hx)
  exports := fun x _ _ _ => by rw [hexports]
  dcs := fun x _ _ _ => by rw [hdcs]
  registered := fun x _ hx => by rwa [Registered, hstored, hdcs]
  travels := htravels

end Grows

theorem Queues.grows {more : RequestId → Prop} (h : Queues more s s') : Grows p n s s' := by
  have hsame := h.same
  refine .of_same (by rw [hsame]) (by rw [hsame]) (by rw [hsame]) (by rw [hsame]) ?_
  rintro x - - (hx | hx | hx)
  · exact .inl ((h.toSend x).mpr (.inl hx))
  · exact .inr (.inl ((h.haveSent x).mpr hx))
  · exact .inr (.inr (by rwa [hsame]))

theorem Checked.grows {l : List (RequestId × Time)} (h : Checked l s s')
    (hl : ∀ x, s.Delayed x → x ∈ l.map Prod.fst) : Grows p n s s' := by
  have hsame := h.same
  refine .of_same (by rw [hsame]) (by rw [hsame]) (by rw [hsame]) (by rw [hsame]) ?_
  intro x _ hregistered hx
  exact h.travels (hx.imp id (Or.imp id (hl x))) hregistered

theorem grows_registerRequest (requestId : RequestId) (dc : ShiftedDcId) (s : Instance) :
    Grows (· ≠ requestId) n s (s.registerRequest requestId dc) where
  handlers := fun _ _ _ => rfl
  added := fun _ _ hx => .inl hx
  exports := fun _ _ _ _ => rfl
  dcs := fun x hp _ _ => by rw [registerRequest, insert_getElem?, if_neg hp.symm]
  registered := fun x _ hx => ⟨hx.1, Std.TreeMap.mem_insert.mpr (.inr hx.2)⟩
  travels := fun _ _ _ hx => hx

theorem grows_unregisterRequest (requestId : RequestId) (s : Instance) :
    Grows (· ≠ requestId) n s (s.unregisterRequest requestId) where
  handlers := fun _ _ _ => rfl
  added := fun _ _ hx => .inl hx
  exports := fun _ _ _ _ => rfl
  dcs := fun x hp _ _ => by rw [unregisterRequest, erase_getElem?, if_neg hp.symm]
  registered := fun x hp hx => by
    have hne : compare requestId x ≠ .eq := fun heq =>
      hp (Std.LawfulEqCmp.compare_eq_iff_eq.mp heq).symm
    exact ⟨Std.TreeMap.mem_erase.mpr ⟨hne, hx.1⟩, Std.TreeMap.mem_erase.mpr ⟨hne, hx.2⟩⟩
  travels := fun _ _ _ hx => hx

theorem grows_eraseHandler (requestId : RequestId) (s : Instance) :
    Grows (· ≠ requestId) n s { s with parserMap := s.parserMap.erase requestId } where
  handlers := fun x hp _ => by rw [erase_getElem?, if_neg hp.symm]
  added := fun x _ hx => .inl (Std.TreeMap.mem_of_mem_erase hx)
  exports := fun _ _ _ _ => rfl
  dcs := fun _ _ _ _ => rfl
  registered := fun _ _ hx => hx
  travels := fun _ _ _ hx => hx

theorem grows_insertHandler (requestId : RequestId) (handler : ResponseHandler) (s : Instance) :
    Grows (· ≠ requestId) n s
      { s with parserMap := s.parserMap.insertIfNew requestId handler } where
  handlers := fun x hp _ => by
    rw [insertIfNew_getElem?, if_neg hp.symm, Option.or_none]
  added := fun x hp hx => by
    obtain hx | hx := Std.TreeMap.mem_insertIfNew.mp hx
    · exact absurd (Std.LawfulEqCmp.compare_eq_iff_eq.mp hx).symm hp
    · exact .inl hx
  exports := fun _ _ _ _ => rfl
  dcs := fun _ _ _ _ => rfl
  registered := fun _ _ hx => hx
  travels := fun _ _ _ hx => hx

theorem grows_storeLayer (requestId : RequestId) (request : StoredRequest) (s : Instance) :
    Grows p n s { s with requestMap := s.requestMap.insert requestId request } where
  handlers := fun _ _ _ => rfl
  added := fun _ _ hx => .inl hx
  exports := fun _ _ _ _ => rfl
  dcs := fun _ _ _ _ => rfl
  registered := fun x _ hx => ⟨Std.TreeMap.mem_insert.mpr (.inr hx.1), hx.2⟩
  travels := fun _ _ _ hx => hx

/-! ## A new request -/

theorem send_grows {callbacks : Option ResponseHandler} {shiftedDcId : ShiftedDcId}
    {after x : RequestId} (hs : s.NextIsFresh)
    (h : s.send callbacks shiftedDcId after = some (s', x)) : Grows p s.nextRequestId s s' := by
  obtain ⟨t, ht, h⟩ := Option.map_eq_some_iff.mp h
  obtain ⟨rfl, rfl⟩ := Prod.mk.inj h
  obtain ⟨⟨u, session⟩, hu, rfl⟩ := Option.map_eq_some_iff.mp ht
  have hnumber : Grows p s.nextRequestId s s.getNextRequestId.2 :=
    .of_same rfl rfl rfl rfl fun _ _ _ hx => hx
  have hsession : Grows p s.nextRequestId s.getNextRequestId.2 u := (queues_getSession hu).grows
  have hsame := (queues_getSession hu).same
  refine (hnumber.trans hsession).trans (.trans ?_ (queues_sendPrepared session _ _).grows)
  have hfresh : s.nextRequestId ∉ u.parserMap := by
    rw [hsame]
    exact hs.handler
  constructor
  · intro y _ hy
    cases callbacks with
    | none => rfl
    | some handler =>
      change (u.parserMap.insertIfNew s.nextRequestId handler)[y]? = u.parserMap[y]?
      have hne : s.nextRequestId ≠ y := fun heq => hfresh (heq ▸ hy)
      rw [insertIfNew_getElem?, if_neg hne, Option.or_none]
  · intro y _ hy
    cases callbacks with
    | none => exact .inl hy
    | some handler =>
      obtain hy | hy := Std.TreeMap.mem_insertIfNew.mp hy
      · obtain rfl := Std.LawfulEqCmp.compare_eq_iff_eq.mp hy
        exact .inr ⟨rfl, Std.TreeMap.mem_insertIfNew.mpr (.inl hy),
          Std.TreeMap.mem_insert.mpr (.inl hy)⟩
      · exact .inl hy
  · exact fun _ _ _ _ => rfl
  · intro y _ hy _
    have hne : s.nextRequestId ≠ y := fun heq => hfresh (heq ▸ hy)
    exact (insert_getElem? _ _ _ _).trans (if_neg hne)
  · exact fun y _ hy => ⟨Std.TreeMap.mem_insertIfNew.mpr (.inr hy.1),
      Std.TreeMap.mem_insert.mpr (.inr hy.2)⟩
  · exact fun _ _ _ hy => hy

theorem send_waiters {callbacks : Option ResponseHandler} {shiftedDcId : ShiftedDcId}
    {after x : RequestId} (h : s.send callbacks shiftedDcId after = some (s', x)) :
    s'.authWaiters = s.authWaiters := by
  obtain ⟨t, ht, h⟩ := Option.map_eq_some_iff.mp h
  obtain ⟨rfl, rfl⟩ := Prod.mk.inj h
  obtain ⟨⟨u, session⟩, hu, rfl⟩ := Option.map_eq_some_iff.mp ht
  change u.authWaiters = _
  rw [(queues_getSession hu).same]

/-! ## A handled error -/

/-- The request itself stays known. It may wait where others wait already, or where an
authorization was asked for. -/
structure Handles (requestId : RequestId) (s s' : Instance) : Prop where
  grows : Grows (· ≠ requestId) s.nextRequestId s s'
  added : ∀ x, x ∈ s'.parserMap → x ∈ s.parserMap ∨ x = s.nextRequestId
  registered : s.Registered requestId → s'.Registered requestId
  waiters : ∀ dcId, s'.waiters dcId = s.waiters dcId ∨
    s'.waiters dcId = s.waiters dcId ++ [requestId] ∧
      (s.waiters dcId ≠ [] ∨ dcId ≠ 0 ∧ s'.AuthInFlight dcId)

theorem waiters_congr (h : s'.authWaiters = s.authWaiters) (dcId : DcId) :
    s'.waiters dcId = s.waiters dcId := by
  rw [waiters, waiters, h]

theorem Handles.of_grows (hgrows : ∀ q, Grows q s.nextRequestId s s')
    (hwaiters : s'.authWaiters = s.authWaiters) :
    Handles requestId s s' where
  grows := hgrows _
  added := fun x hx => ((hgrows fun _ => True).added x trivial hx).imp id And.left
  registered := (hgrows fun _ => True).registered requestId trivial
  waiters := fun dcId => .inl (waiters_congr hwaiters dcId)

theorem Handles.refl (s : Instance) : Handles requestId s s := .of_grows (fun _ => .refl s) rfl

theorem moveTo_handles {newdc dc : ShiftedDcId} {handled : Bool}
    (h : s.moveTo requestId newdc dc = some (s', handled)) : Handles requestId s s' := by
  rw [moveTo] at h
  split_ifs at h
  · obtain ⟨⟨t, session⟩, ht, h⟩ := Option.map_eq_some_iff.mp h
    obtain rfl := (Prod.mk.inj h).1
    have hsession := queues_getSession ht
    have hprepared := queues_sendPrepared session requestId (t.registerRequest requestId dc)
    refine ⟨(hsession.grows.trans (grows_registerRequest requestId dc t)).trans hprepared.grows,
      fun x hx => .inl ?_, fun hx => ?_, fun dcId => .inl ?_⟩
    · change x ∈ t.parserMap at hx
      rwa [hsession.same] at hx
    · have ht : t.Registered requestId :=
        (hsession.grows (p := fun _ => True) (n := s.nextRequestId)).registered requestId trivial hx
      exact ⟨ht.1, Std.TreeMap.mem_insert.mpr (.inr ht.2)⟩
    · change t.waiters dcId = _
      rw [waiters, waiters, hsession.same]
  · obtain rfl := (Prod.mk.inj (Option.some_injective _ h)).1
    exact .refl s

theorem migrate_handles {newdc : Int32} {handled : Bool} (hdc : ¬s.dcWithShift requestId < 0)
    (h : s.migrate requestId newdc = some (s', handled)) : Handles requestId s s' := by
  simp only [migrate] at h
  split_ifs at h
  · obtain rfl := (Prod.mk.inj (Option.some_injective _ h)).1
    exact .refl s
  · exact moveTo_handles h

theorem checkDelayed_handles {l : List (RequestId × Time)} {delays : Std.TreeMap RequestId Int32}
    (hl : ∀ x, s.Delayed x → x ∈ l.map Prod.fst)
    (h : Checked l { s with requestsDelays := delays } s') : Handles requestId s s' := by
  refine .of_grows (fun q => ?_) (by rw [h.same])
  have hdelays : Grows q s.nextRequestId s { s with requestsDelays := delays } :=
    .of_same rfl rfl rfl rfl fun _ _ _ hx => hx
  exact hdelays.trans (h.grows hl)

theorem delay_handles {handled : Bool}
    (h : s.delay requestId error now later = some (s', handled)) : Handles requestId s s' := by
  cases handled with
  | false =>
    rw [delay] at h
    split_ifs at h
    · obtain rfl := (Prod.mk.inj (Option.some_injective _ h)).1
      exact .refl s
    · dsimp only at h
      split at h
      · simp at h
      · obtain ⟨_, -, h⟩ := Option.map_eq_some_iff.mp h
        simp at h
  | true =>
    obtain ⟨delays, ⟨rfl, -⟩ | ⟨l, hl, hchecked⟩⟩ := delay_cases h
    · exact .of_grows (fun q => .of_same rfl rfl rfl rfl fun _ _ _ hx => hx) rfl
    · exact checkDelayed_handles (fun x hx => (hl x).mpr (.inr hx)) hchecked

theorem markGuest_grows (x : RequestId) (guest : Bool) : Grows p n s (s.markGuest x guest) := by
  rw [markGuest]
  split_ifs
  · exact .of_same rfl rfl rfl rfl fun _ _ _ hx => hx
  · exact .refl s

theorem setWaiters_grows (dcId : DcId) (l : List RequestId) : Grows p n s (s.setWaiters dcId l) :=
  .of_same rfl rfl rfl rfl fun _ _ _ hx => hx

theorem waiters_markGuest (x : RequestId) (guest : Bool) (dcId : DcId) :
    (s.markGuest x guest).waiters dcId = s.waiters dcId := by
  rw [markGuest]
  split_ifs <;> rfl

theorem authInFlight_markGuest (x : RequestId) (guest : Bool) (dcId : DcId) :
    (s.markGuest x guest).AuthInFlight dcId ↔ s.AuthInFlight dcId := by
  rw [markGuest]
  split_ifs <;> exact Iff.rfl

/-- A request is put to others that wait, or to an authorization on its way. -/
theorem push_handles {newdc : DcId} (guest : Bool) {t : Instance}
    (hgrows : ∀ q, Grows q s.nextRequestId s t)
    (hwaiters : t.authWaiters = s.authWaiters)
    (hauth : s.waiters newdc ≠ [] ∨ newdc ≠ 0 ∧ t.AuthInFlight newdc) :
    Handles requestId s
      ((t.setWaiters newdc (t.waiters newdc ++ [requestId])).markGuest requestId guest) where
  grows := ((hgrows _).trans (setWaiters_grows newdc _)).trans (markGuest_grows requestId guest)
  added := fun x hx =>
    ((((hgrows fun _ => True).trans (setWaiters_grows newdc _)).trans
      (markGuest_grows requestId guest)).added x trivial hx).imp id And.left
  registered := fun hx =>
    (((hgrows fun _ => True).trans (setWaiters_grows newdc _)).trans
      (markGuest_grows requestId guest)).registered requestId trivial hx
  waiters := fun dcId => by
    have hsame : ∀ d, t.waiters d = s.waiters d := waiters_congr hwaiters
    rw [waiters_markGuest, waiters_setWaiters, hsame, hsame]
    split_ifs with hdc
    · subst hdc
      refine .inr ⟨rfl, hauth.imp id fun h => ⟨h.1, ?_⟩⟩
      rw [authInFlight_markGuest]
      exact h.2
    · exact .inl rfl

theorem waitForAuth_handles {handled : Bool} (hs : s.NextIsFresh)
    (hregistered : ∀ x, x ∈ s.parserMap → s.Registered x)
    (h : s.waitForAuth requestId error = some (s', handled)) : Handles requestId s s' := by
  rw [waitForAuth] at h
  split_ifs at h with hzero hnone hmain
  · obtain rfl := (Prod.mk.inj (Option.some_injective _ h)).1
    exact .refl s
  · obtain rfl := (Prod.mk.inj (Option.some_injective _ h)).1
    exact .refl s
  · obtain ⟨t, ht, h⟩ := Option.map_eq_some_iff.mp h
    obtain rfl := (Prod.mk.inj h).1
    by_cases hwaiters : s.waiters (s.authDc requestId) = []
    · have hauth := startExport_authInFlight ⟨hregistered, hs.handler, hs.exports⟩ hwaiters rfl ht
      rw [startExport, if_pos (show s.waiters (bareDcId _) = [] from hwaiters)] at ht
      obtain ⟨⟨u, x⟩, hu, rfl⟩ := Option.map_eq_some_iff.mp ht
      have hsame : u.authWaiters = s.authWaiters := send_waiters hu
      refine push_handles _ (fun q => ?_) hsame (.inr ⟨hzero, hauth⟩)
      refine (send_grows hs hu).trans ⟨fun _ _ _ => rfl, fun _ _ hx => .inl hx, ?_,
        fun _ _ _ _ => rfl, fun _ _ hx => hx, fun _ _ _ hx => hx⟩
      intro y _ hy hexports
      obtain ⟨target, htarget⟩ := (mem_iff_exists _ _).mp hexports
      rw [insertIfNew_getElem?, htarget, Option.some_or]
    · rw [startExport, if_neg (show s.waiters (bareDcId _) ≠ [] from hwaiters)] at ht
      obtain rfl := Option.some_injective _ ht
      exact push_handles _ (fun q => .refl s) rfl (.inl hwaiters)

theorem resendWithLayer_handles {request : StoredRequest} {dc : ShiftedDcId} {handled : Bool}
    (h : s.resendWithLayer requestId request dc = some (s', handled)) : Handles requestId s s' := by
  obtain ⟨⟨t, session⟩, ht, h⟩ := Option.map_eq_some_iff.mp h
  obtain rfl := (Prod.mk.inj h).1
  have hsession := queues_getSession ht
  refine .of_grows (fun q => ?_) ?_
  · exact (hsession.grows.trans (grows_storeLayer requestId _ t)).trans
      (queues_sendPrepared session requestId _).grows
  · change t.authWaiters = _
    rw [hsession.same]

theorem initAgain_handles {handled : Bool} (h : s.initAgain requestId = some (s', handled)) :
    Handles requestId s s' := by
  rw [initAgain] at h
  cases hrequest : s.requestMap[requestId]? with
  | none =>
    rw [hrequest] at h
    obtain rfl := (Prod.mk.inj (Option.some_injective _ h)).1
    exact .refl s
  | some request =>
    simp only [hrequest] at h
    split_ifs at h
    · obtain rfl := (Prod.mk.inj (Option.some_injective _ h)).1
      exact .refl s
    · exact resendWithLayer_handles h

theorem waitWith_handles {after : RequestId} {newdc : DcId}
    (h : s.waitWith requestId after newdc later = some s') : Handles requestId s s' := by
  rw [waitWith] at h
  split_ifs at h with hwaiters hmem
  · obtain rfl := Option.some_injective _ h
    exact .of_grows (fun q => markGuest_grows requestId _) (by rw [markGuest]; split_ifs <;> rfl)
  · obtain rfl := Option.some_injective _ h
    have hne : s.waiters newdc ≠ [] := List.ne_nil_of_mem hwaiters
    exact push_handles _ (fun q => .refl s) rfl (.inl hne)
  · cases hinsert : insertBefore requestId after s.delayedRequests with
    | none =>
      rw [hinsert] at h
      obtain rfl := Option.some_injective _ h
      exact .refl s
    | some l =>
      rw [hinsert] at h
      have hchecked := checkDelayed_checked h
      have hl := insertBefore_mem hinsert
      have hagain : Checked l { s with requestsDelays := s.requestsDelays } s' :=
        ⟨hchecked.same, hchecked.left, hchecked.haveSent⟩
      exact checkDelayed_handles (fun x hx => (hl x).mpr (.inl hx)) hagain

theorem waitFailed_handles {handled : Bool}
    (h : s.waitFailed requestId later = some (s', handled)) : Handles requestId s s' := by
  rw [waitFailed] at h
  split at h
  · obtain rfl := (Prod.mk.inj (Option.some_injective _ h)).1
    exact .refl s
  split at h
  · obtain rfl := (Prod.mk.inj (Option.some_injective _ h)).1
    exact .refl s
  split at h
  · dsimp only at h
    split at h
    · obtain rfl := (Prod.mk.inj (Option.some_injective _ h)).1
      exact .of_grows (fun q => grows_storeLayer requestId _ s) rfl
    split at h
    · exact resendWithLayer_handles h
    · obtain ⟨t, ht, h⟩ := Option.map_eq_some_iff.mp h
      obtain rfl := (Prod.mk.inj h).1
      exact waitWith_handles ht
  · obtain rfl := (Prod.mk.inj (Option.some_injective _ h)).1
    exact .refl s

/-- An error that does not move the main dc takes nothing away from the others. -/
theorem onErrorDefault_handles {handled : Bool} (hs : s.NextIsFresh)
    (hregistered : ∀ x, x ∈ s.parserMap → s.Registered x) (hdc : s.StaysInDc requestId error)
    (h : s.onErrorDefault requestId error now later = some (s', handled)) :
    Handles requestId s s' := by
  rw [onErrorDefault] at h
  cases hmigrate : error.migrateDc? with
  | some newdc =>
    rw [hmigrate] at h
    exact migrate_handles (hdc.resolve_left (by simp [hmigrate])) h
  | none =>
    rw [hmigrate] at h
    dsimp only at h
    split_ifs at h
    · exact delay_handles h
    · exact waitForAuth_handles hs hregistered h
    · exact initAgain_handles h
    · exact waitFailed_handles h
    · obtain rfl := (Prod.mk.inj (Option.some_injective _ h)).1
      exact .of_grows (fun q => .of_same rfl rfl rfl rfl fun _ _ _ hx => hx) rfl
    · obtain rfl := (Prod.mk.inj (Option.some_injective _ h)).1
      exact .refl s

end Bettergram.Mtproto.Instance
