import Bettergram.Mtproto.InstanceGrows

/-! # Nobody waits for nothing

While requests wait for an authorization in a data center, an export or
an import for it is on its way.
-/

namespace Bettergram.Mtproto.Instance
open Foundation

variable {p : RequestId → Prop} {s s' : Instance} {requestId : RequestId} {error : RPCError}
  {now later : Time}

structure Carried (s : Instance) : Prop where
  registered : ∀ x, x ∈ s.parserMap → x ≠ 0 ∧ s.Registered x
  inFlight : ∀ dcId, s.waiters dcId ≠ [] → dcId ≠ 0 ∧ s.AuthInFlight dcId
  callers : ∀ dcId x, x ∈ s.waiters dcId → ¬s.IsAuth x

theorem AuthFor.isAuth {dcId : DcId} {x : RequestId} (h : s.AuthFor dcId x) : s.IsAuth x := by
  obtain ⟨_, h, -⟩ | ⟨_, h, -⟩ := h
  · exact .inl h
  · exact .inr h

theorem IsAuth.handled {x : RequestId} (h : s.IsAuth x) : x ∈ s.parserMap := by
  obtain h | h := h <;> exact (mem_iff_exists _ _).mpr ⟨_, h⟩

/-- What is left to say of a step that leaves most requests alone. -/
theorem Carried.of_grows (hs : s.Carried) (hfresh : s.NextIsFresh)
    (hgrows : Grows p s.nextRequestId s s')
    (hself : ∀ x, ¬p x → x ∈ s'.parserMap → x ≠ 0 ∧ s'.Registered x)
    (hwaiters : ∀ dcId, s'.waiters dcId ≠ [] →
      s.waiters dcId ≠ [] ∨ dcId ≠ 0 ∧ s'.AuthInFlight dcId)
    (hauth : ∀ dcId x, ¬p x → s.AuthFor dcId x → s'.waiters dcId ≠ [] → s'.AuthInFlight dcId)
    (hcallers : ∀ dcId x, x ∈ s'.waiters dcId → x ∈ s.waiters dcId ∧ p x ∨ ¬s'.IsAuth x) :
    s'.Carried where
  registered := fun x hx => by
    by_cases hp : p x
    · obtain hold | ⟨rfl, hnew⟩ := hgrows.added x hp hx
      · obtain ⟨hne, hregistered⟩ := hs.registered x hold
        exact ⟨hne, hgrows.registered x hp hregistered⟩
      · exact ⟨hfresh.notZero, hnew⟩
    · exact hself x hp hx
  inFlight := fun dcId hne => by
    obtain hold | hnew := hwaiters dcId hne
    · obtain ⟨hdc, x, hx, htravels⟩ := hs.inFlight dcId hold
      refine ⟨hdc, ?_⟩
      by_cases hp : p x
      · have hregistered := (hs.registered x hx.handled).2
        exact ⟨x, hgrows.authFor hp hx, hgrows.travels x hp hregistered htravels⟩
      · exact hauth dcId x hp hx hne
    · exact hnew
  callers := fun dcId x hx hauth => by
    obtain ⟨hold, hp⟩ | hnot := hcallers dcId x hx
    · have hne : x ≠ s.nextRequestId := fun heq => hfresh.notWaiting dcId (heq ▸ hold)
      have hmem : x ∈ s.parserMap :=
        (hgrows.added x hp hauth.handled).resolve_right fun h => hne h.1
      have hsame := hgrows.handlers x hp hmem
      exact hs.callers dcId x hold (by rwa [IsAuth, hsame] at hauth)
    · exact hnot hauth

/-- A step that leaves all requests alone. -/
theorem Carried.of_all (hs : s.Carried) (hfresh : s.NextIsFresh)
    (hgrows : Grows (fun _ => True) s.nextRequestId s s')
    (hwaiters : s'.authWaiters = s.authWaiters) : s'.Carried := by
  have hsame := waiters_congr hwaiters
  refine hs.of_grows hfresh hgrows (fun x hx => absurd trivial hx) (fun dcId hne => ?_)
    (fun dcId x hx => absurd trivial hx) (fun dcId x hx => .inl ⟨?_, trivial⟩)
  · exact .inl (hsame dcId ▸ hne)
  · exact hsame dcId ▸ hx

/-- A step that leaves all but one request alone, which loses its callbacks. -/
theorem Carried.of_lost (hs : s.Carried) (hfresh : s.NextIsFresh)
    (hgrows : Grows (· ≠ requestId) s.nextRequestId s s')
    (hwaiters : s'.authWaiters = s.authWaiters) (hcaller : ¬s.IsAuth requestId)
    (hlost : requestId ∉ s'.parserMap) : s'.Carried := by
  have hsame := waiters_congr hwaiters
  refine hs.of_grows hfresh hgrows (fun x hx => ?_) (fun dcId hne => ?_) (fun dcId x hx => ?_)
    (fun dcId x hx => ?_)
  · obtain rfl := not_not.mp hx
    exact fun hmem => absurd hmem hlost
  · exact .inl (hsame dcId ▸ hne)
  · obtain rfl := not_not.mp hx
    exact fun hauth => absurd hauth.isAuth hcaller
  · by_cases hne : x = requestId
    · subst hne
      exact .inr fun hauth => hlost hauth.handled
    · exact .inl ⟨hsame dcId ▸ hx, hne⟩

/-! ## The steps of a session and the callers -/

theorem holds_insert {q q' : SessionQueue → Prop} {session : ShiftedDcId} {queue : SessionQueue}
    (h : s.Holds q) (hq : ∀ old, s.sessions[session]? = some old → q old → q' queue)
    (hqq' : ∀ old, q old → q' old) :
    { s with sessions := s.sessions.insert session queue }.Holds q' := by
  obtain ⟨k, old, hold, hx⟩ := h
  by_cases hk : session = k
  · subst hk
    exact ⟨session, queue, by rw [insert_getElem?, if_pos rfl], hq old hold hx⟩
  · exact ⟨k, old, by rw [insert_getElem?, if_neg hk, hold], hqq' old hx⟩

theorem mem_erase_of_ne {t : Std.TreeSet RequestId} {x y : RequestId} (hne : x ≠ y) (hx : x ∈ t) :
    x ∈ t.erase y :=
  Std.TreeSet.mem_erase.mpr
    ⟨fun heq => hne (Std.LawfulEqCmp.compare_eq_iff_eq.mp heq).symm, hx⟩

theorem sendQueued_grows (session : ShiftedDcId) (requestId n : RequestId) (s : Instance) :
    Grows p n s (s.sendQueued session requestId) ∧
      (s.sendQueued session requestId).authWaiters = s.authWaiters := by
  rw [sendQueued]
  cases hqueue : s.sessions[session]? with
  | none => exact ⟨.refl s, rfl⟩
  | some queue =>
    dsimp only
    split_ifs with hmem
    swap
    · exact ⟨.refl s, rfl⟩
    refine ⟨.of_same rfl rfl rfl rfl ?_, rfl⟩
    rintro x - - (hx | hx | hx)
    · by_cases hne : x = requestId
      · subst hne
        exact .inr (.inl ⟨session, _, by rw [insert_getElem?, if_pos rfl],
          Std.TreeSet.mem_insert_self⟩)
      · refine .inl (holds_insert hx (fun old hold hx => ?_) fun _ hx => hx)
        obtain rfl := Option.some_injective _ (hqueue.symm.trans hold)
        exact mem_erase_of_ne hne hx
    · refine .inr (.inl (holds_insert hx (fun old hold hx => ?_) fun _ hx => hx))
      obtain rfl := Option.some_injective _ (hqueue.symm.trans hold)
      exact Std.TreeSet.mem_insert.mpr (.inr hx)
    · exact .inr (.inr hx)

theorem forget_grows (session : ShiftedDcId) (requestId n : RequestId) (s : Instance) :
    Grows (· ≠ requestId) n s (s.forget session requestId) ∧
      (s.forget session requestId).authWaiters = s.authWaiters := by
  rw [forget]
  cases hqueue : s.sessions[session]? with
  | none => exact ⟨.refl s, rfl⟩
  | some queue =>
    refine ⟨.of_same rfl rfl rfl rfl ?_, rfl⟩
    rintro x hne - (hx | hx | hx)
    · refine .inl (holds_insert hx (fun old hold hx => ?_) fun _ hx => hx)
      obtain rfl := Option.some_injective _ (hqueue.symm.trans hold)
      exact hx
    · refine .inr (.inl (holds_insert hx (fun old hold hx => ?_) fun _ hx => hx))
      obtain rfl := Option.some_injective _ (hqueue.symm.trans hold)
      exact mem_erase_of_ne hne hx
    · exact .inr (.inr hx)

theorem cancelIn_grows (session : ShiftedDcId) (requestId n : RequestId) (s : Instance) :
    Grows (· ≠ requestId) n s (s.cancelIn session requestId) := by
  refine .of_same rfl rfl rfl rfl ?_
  rintro x hne - (hx | hx | hx)
  · refine .inl (holds_insert hx (fun old hold hx => ?_) fun _ hx => hx)
    rw [hold]
    exact mem_erase_of_ne hne hx
  · refine .inr (.inl (holds_insert hx (fun old hold hx => ?_) fun _ hx => hx))
    rw [hold]
    exact mem_erase_of_ne hne hx
  · exact .inr (.inr hx)

theorem cancel_grows (hne : requestId ≠ 0) (h : s.cancel requestId = some s') :
    Grows (· ≠ requestId) s.nextRequestId s s' ∧ s'.authWaiters = s.authWaiters ∧
      requestId ∉ s'.parserMap := by
  rw [cancel, if_neg hne] at h
  obtain ⟨t, ht, rfl⟩ := Option.map_eq_some_iff.mp h
  have hlost : requestId ∉ t.parserMap.erase requestId := by simp [Std.TreeMap.mem_erase]
  suffices hgrows : Grows (· ≠ requestId) s.nextRequestId s t ∧ t.authWaiters = s.authWaiters from
    ⟨hgrows.1.trans (grows_eraseHandler requestId t), hgrows.2, hlost⟩
  have hunregister := grows_unregisterRequest (n := s.nextRequestId) requestId s
  cases hdc : s.requestsByDc[requestId]? with
  | none =>
    rw [hdc] at ht
    obtain rfl := Option.some_injective _ ht
    exact ⟨hunregister, rfl⟩
  | some dc =>
    rw [hdc] at ht
    obtain ⟨⟨u, session⟩, hu, rfl⟩ := Option.map_eq_some_iff.mp ht
    have hqueues := queues_getSession hu
    refine ⟨(hunregister.trans hqueues.grows).trans (cancelIn_grows session requestId _ u), ?_⟩
    change u.authWaiters = _
    rw [hqueues.same]
    rfl

end Bettergram.Mtproto.Instance

/-! ## What is sent again

An export and an import are sent again after the errors that pass. The answer
to the import puts the requests that wait in the queues of the sessions.
-/

namespace Bettergram.Mtproto.Instance
open Foundation

variable {s s' : Instance} {requestId : RequestId} {error : RPCError} {now later : Time}

/-! ## The export and the import after an error -/

theorem captured_some {start : String} {n : Int32} (h : error.captured? start = some n) :
    start.toList <+: error.type.toList := by
  obtain ⟨m, hm, -⟩ := Option.map_eq_some_iff.mp h
  obtain ⟨l, hl, -⟩ := Option.bind_eq_some_iff.mp hm
  obtain ⟨start', htype, hstart⟩ := List.dropPrefix?_eq_some_iff.mp hl
  rw [htype, eq_of_beq hstart]
  exact List.prefix_append _ _

/-- The types that begin so are not those of another beginning. -/
theorem migrateDc_none (first : String) (h : first.toList <+: error.type.toList)
    (hother : ∀ start ∈ ["FILE_MIGRATE_", "PHONE_MIGRATE_", "NETWORK_MIGRATE_", "USER_MIGRATE_"],
      ¬start.toList <+: first.toList ∧ ¬first.toList <+: start.toList) :
    error.migrateDc? = none := by
  rw [RPCError.migrateDc?, List.findSome?_eq_none_iff]
  intro start hstart
  cases hcaptured : error.captured? start with
  | none => rfl
  | some n =>
    obtain ⟨hnot, hnot'⟩ := hother start hstart
    obtain hpre | hpre := List.prefix_or_prefix_of_prefix (captured_some hcaptured) h
    · exact absurd hpre hnot
    · exact absurd hpre hnot'

theorem SentAgain.not_migrate (h : s.SentAgain requestId error) : error.migrateDc? = none := by
  obtain hinternal | hflood | ⟨htype, -, -⟩ := h
  · have htype := error.internal (by simpa [RPCError.isInternal] using hinternal)
    exact migrateDc_none "INTERNAL_SERVER_ERROR" (by rw [htype]) (by decide)
  · obtain ⟨n, hn⟩ := Option.isSome_iff_exists.mp hflood
    exact migrateDc_none "FLOOD_WAIT_" (captured_some hn) (by decide)
  · obtain htype | htype := htype
    · exact migrateDc_none "CONNECTION_NOT_INITED" (by rw [htype]) (by decide)
    · exact migrateDc_none "CONNECTION_LAYER_INVALID" (by rw [htype]) (by decide)

/-- What was registered for a request before the error. -/
structure Travelling (requestId : RequestId) (s s' : Instance) : Prop where
  travels : s'.Travels requestId
  exports : s'.authExportRequests = s.authExportRequests
  dcs : s'.requestsByDc = s.requestsByDc
  waiters : s'.authWaiters = s.authWaiters

theorem delay_travelling {handled : Bool} (hne : requestId ≠ 0) (hregistered : s.Registered requestId)
    (h : s.delay requestId error now later = some (s', handled)) :
    handled = true ∧ Travelling requestId s s' := by
  have hhandled : handled = true := by
    rw [delay, if_neg hne] at h
    dsimp only at h
    split at h
    · exact (Prod.mk.inj (Option.some_injective _ h)).2.symm
    · obtain ⟨_, -, h⟩ := Option.map_eq_some_iff.mp h
      exact (Prod.mk.inj h).2.symm
  subst hhandled
  refine ⟨rfl, ?_⟩
  obtain ⟨delays, ⟨rfl, hdelayed⟩ | ⟨l, hl, hchecked⟩⟩ := delay_cases h
  · exact ⟨.inr (.inr hdelayed), rfl, rfl, rfl⟩
  · have hsame := hchecked.same
    have hmem : requestId ∈ l.map Prod.fst := (hl requestId).mpr (.inl rfl)
    exact ⟨hchecked.travels (.inr (.inr hmem)) hregistered, by rw [hsame], by rw [hsame],
      by rw [hsame]⟩

theorem initAgain_travelling {handled : Bool} (hregistered : s.Registered requestId)
    (hdc : s.dcWithShift requestId ≠ 0) (h : s.initAgain requestId = some (s', handled)) :
    handled = true ∧ Travelling requestId s s' := by
  obtain ⟨request, hrequest⟩ := (mem_iff_exists _ _).mp hregistered.1
  rw [initAgain, hrequest] at h
  simp only [if_neg hdc] at h
  have hqueue := resendWithLayer_scheduled h
  obtain ⟨⟨t, session⟩, ht, h⟩ := Option.map_eq_some_iff.mp h
  obtain ⟨rfl, rfl⟩ := Prod.mk.inj h
  have hsame := (queues_getSession ht).same
  refine ⟨rfl, .inl hqueue, ?_, ?_, ?_⟩
  · change t.authExportRequests = _
    rw [hsame]
  · change t.requestsByDc = _
    rw [hsame]
  · change t.authWaiters = _
    rw [hsame]

theorem SentAgain.travelling {handled : Bool} (hs : s.SentAgain requestId error)
    (hne : requestId ≠ 0) (hregistered : s.Registered requestId)
    (h : s.onErrorDefault requestId error now later = some (s', handled)) :
    handled = true ∧ Travelling requestId s s' := by
  rw [onErrorDefault, hs.not_migrate] at h
  dsimp only at h
  by_cases hdelay : error.isInternal || error.floodWait?.isSome
  · rw [if_pos hdelay] at h
    exact delay_travelling hne hregistered h
  rw [if_neg hdelay] at h
  rw [Bool.or_eq_true, not_or] at hdelay
  obtain ⟨htype, hcode, hdc⟩ := (hs.resolve_left hdelay.1).resolve_left hdelay.2
  have hauth : ¬s.needsAuth requestId error := by
    obtain htype | htype := htype <;> simp [needsAuth, hcode, RPCError.badGuestDc, htype]
  rw [if_neg hauth, if_pos htype] at h
  exact initAgain_travelling hregistered hdc h

/-! ## The waiters after the import -/

/-- A waiter that is known gets its new dc. -/
def redirect (newdc : DcId) (waiter : RequestId) (s : Instance) : Instance :=
  if s.Registered waiter then
    s.registerRequest waiter (changedDc newdc (s.dcWithShift waiter))
  else s

theorem resendWaiter_queues {newdc : DcId} {waiter : RequestId}
    (hdc : s.Registered waiter → ¬changedDc newdc (s.dcWithShift waiter) < 0)
    (h : s.resendWaiter newdc waiter = some s') :
    Queues (fun x => x = waiter ∧ s.Registered waiter) (s.redirect newdc waiter) s' := by
  have hunknown : ¬s.Registered waiter → s = s' →
      Queues (fun x => x = waiter ∧ s.Registered waiter) (s.redirect newdc waiter) s' := by
    rintro hnot rfl
    rw [redirect, if_neg hnot]
    exact ⟨rfl, fun x => ⟨.inl, Or.rec id fun hx => absurd hx.2 hnot⟩, fun x => Iff.rfl⟩
  rw [resendWaiter] at h
  split_ifs at h with hstored
  · cases hfind : s.requestsByDc[waiter]? with
    | none =>
      rw [hfind] at h
      have hnot : ¬s.Registered waiter := fun hx => absurd hx.2 ((notMem_iff_none _ _).mpr hfind)
      exact hunknown hnot (Option.some_injective _ h)
    | some dc =>
      rw [hfind] at h
      have hregistered : s.Registered waiter := ⟨hstored, (mem_iff_exists _ _).mpr ⟨dc, hfind⟩⟩
      have hchanged := hdc hregistered
      rw [redirect, if_pos hregistered]
      rw [dcWithShift_eq hfind] at hchanged ⊢
      simp only [if_neg hchanged] at h
      have hqueues := queues_sendTo h
      exact ⟨hqueues.same, fun x => by rw [hqueues.toSend, and_iff_left hregistered],
        hqueues.haveSent⟩
  · exact hunknown (fun hx => hstored hx.1) (Option.some_injective _ h)

theorem redirect_grows (newdc : DcId) (waiter n : RequestId) (s : Instance) :
    Grows (· ≠ waiter) n s (s.redirect newdc waiter) := by
  rw [redirect]
  split_ifs
  · exact grows_registerRequest waiter _ s
  · exact .refl s

theorem redirect_registered (newdc : DcId) (waiter : RequestId) {x : RequestId}
    (hx : s.Registered x) : (s.redirect newdc waiter).Registered x := by
  rw [redirect]
  split_ifs
  · exact ⟨hx.1, Std.TreeMap.mem_insert.mpr (.inr hx.2)⟩
  · exact hx

theorem redirect_same (newdc : DcId) (waiter : RequestId) (s : Instance) :
    s.redirect newdc waiter =
      { s with requestsByDc := (s.redirect newdc waiter).requestsByDc } := by
  rw [redirect]
  split_ifs <;> rfl

theorem KeepsMainDc.congr {newdc : DcId} {l : List RequestId} (hmap : s'.requestMap = s.requestMap)
    (hdcs : s'.requestsByDc = s.requestsByDc) (h : KeepsMainDc newdc l s) :
    KeepsMainDc newdc l s' := by
  induction l generalizing s s' with
  | nil => trivial
  | cons waiter l ih =>
    have hsame : s'.Registered waiter ↔ s.Registered waiter := by
      rw [Registered, Registered, hmap, hdcs]
    have hdc : s'.dcWithShift waiter = s.dcWithShift waiter := by
      rw [dcWithShift, dcWithShift, hdcs]
    simp only [KeepsMainDc, hsame, hdc] at h ⊢
    split_ifs at h ⊢
    · let dc := changedDc newdc (s.dcWithShift waiter)
      have hmap' : (s'.registerRequest waiter dc).requestMap =
          (s.registerRequest waiter dc).requestMap := hmap
      have hdcs' : (s'.registerRequest waiter dc).requestsByDc =
          (s.registerRequest waiter dc).requestsByDc := congrArg (·.insert waiter dc) hdcs
      exact ⟨h.1, ih hmap' hdcs' h.2⟩
    · exact ih hmap hdcs h

theorem KeepsMainDc.cons {newdc : DcId} {waiter : RequestId} {l : List RequestId}
    (h : KeepsMainDc newdc (waiter :: l) s) :
    (s.Registered waiter → ¬changedDc newdc (s.dcWithShift waiter) < 0) ∧
      KeepsMainDc newdc l (s.redirect newdc waiter) := by
  rw [KeepsMainDc] at h
  rw [redirect]
  split_ifs at h ⊢ with hregistered
  · exact ⟨fun _ => h.1, h.2⟩
  · exact ⟨fun hx => absurd hx hregistered, h⟩

/-- The waiters that are known are in the queues of sessions. -/
structure Resends (l : List RequestId) (s s' : Instance) : Prop where
  grows : ∀ n, Grows (· ∉ l) n s s'
  parserMap : s'.parserMap = s.parserMap
  authWaiters : s'.authWaiters = s.authWaiters
  registered : ∀ x, s.Registered x → s'.Registered x
  kept : ∀ x, s.InSendQueue x → s'.InSendQueue x
  resent : ∀ x ∈ l, s.Registered x → s'.InSendQueue x

theorem resendWaiters_resends {newdc : DcId} {l : List RequestId} (hdc : KeepsMainDc newdc l s)
    (h : resendWaiters newdc l s = some s') : Resends l s s' := by
  induction l generalizing s with
  | nil =>
    obtain rfl := Option.some_injective _ h
    exact ⟨fun _ => .refl s, rfl, rfl, fun _ hx => hx, fun _ hx => hx, by simp⟩
  | cons waiter l ih =>
    obtain ⟨u, hu, h⟩ := Option.bind_eq_some_iff.mp h
    obtain ⟨hfirst, hrest⟩ := KeepsMainDc.cons hdc
    have hqueues := resendWaiter_queues hfirst hu
    have hu : KeepsMainDc newdc l u :=
      hrest.congr (by rw [hqueues.same]) (by rw [hqueues.same])
    have hloop := ih hu h
    have hsame := redirect_same newdc waiter s
    have hregistered : ∀ x, s.Registered x → u.Registered x := fun x hx =>
      (hqueues.grows (p := fun _ => True) (n := 0)).registered x trivial
        (redirect_registered newdc waiter hx)
    have hqueue : ∀ x, u.InSendQueue x ↔ s.InSendQueue x ∨ x = waiter ∧ s.Registered waiter :=
      fun x => by
        rw [hqueues.toSend, hsame]
        exact Iff.rfl
    constructor
    · intro n
      have hgrows := (redirect_grows newdc waiter n s).trans hqueues.grows
      have hboth : ∀ x, x ∉ waiter :: l → x ≠ waiter ∧ x ∉ l := fun x hx =>
        ⟨List.ne_of_not_mem_cons hx, List.not_mem_of_not_mem_cons hx⟩
      exact (hgrows.mono fun x hx => (hboth x hx).1).trans
        ((hloop.grows n).mono fun x hx => (hboth x hx).2)
    · rw [hloop.parserMap, hqueues.same, hsame]
    · rw [hloop.authWaiters, hqueues.same, hsame]
    · exact fun x hx => hloop.registered x (hregistered x hx)
    · exact fun x hx => hloop.kept x ((hqueue x).mpr (.inl hx))
    · intro x hx hknown
      obtain rfl | hx := List.mem_cons.mp hx
      · exact hloop.kept x ((hqueue x).mpr (.inr ⟨rfl, hknown⟩))
      · exact hloop.resent x hx (hregistered x hknown)

end Bettergram.Mtproto.Instance
