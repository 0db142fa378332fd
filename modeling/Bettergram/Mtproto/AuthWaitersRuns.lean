import Bettergram.Mtproto.AuthWaitersSteps

/-! # The waiters over a run

Of the errors of an export or an import only those that pass, and no change of
the main data center: then nobody who waits is forgotten.
-/

namespace Bettergram.Mtproto.Instance
open Foundation

variable {s s' t : Instance} {requestId : RequestId} {now later : Time}

/-- The steps of a run, each of which hands the waiters on. -/
inductive Runs : Instance → List Event → Instance → Prop
  | nil (s : Instance) : Runs s [] s
  | cons {s s' s'' : Instance} {event : Event} {events : List Event} (hfresh : s.NextIsFresh)
      (hhands : s.HandsOn event) (h : s.step event = some s') (hrest : Runs s' events s'') :
      Runs s (event :: events) s''

theorem Runs.carried {events : List Event} (h : Runs s events s') (hs : s.Carried) :
    s'.Carried := by
  induction h with
  | nil => exact hs
  | cons hfresh hhands h _ ih => exact ih (step_keeps hs hfresh hhands h).carried

/-- A request that waits goes on to wait until it is in the queue of a session. -/
theorem Runs.handed {events : List Event} (h : Runs s events s') (hs : s.Carried) {dcId : DcId}
    {x : RequestId} (hx : x ∈ s.waiters dcId) (hregistered : s.Registered x)
    (hopen : ∀ event ∈ events, ¬event.Settles x) :
    x ∈ s'.waiters dcId ∨ ∃ before after u, events = before ++ after ∧ Runs s before u ∧
      Runs u after s' ∧ u.InSendQueue x := by
  induction h with
  | nil => exact .inl hx
  | @cons s t s'' event events hfresh hhands h hrest ih =>
    have hkeeps := step_keeps hs hfresh hhands h
    have hfirst : ¬event.Settles x := hopen event List.mem_cons_self
    obtain hx' | hqueue := hkeeps.handed dcId x hx hregistered
    · obtain hx' | ⟨before, after, u, rfl, hbefore, hafter, hqueue⟩ := ih hkeeps.carried hx'
        (hkeeps.registered x hfirst hregistered) fun e he => hopen e (List.mem_cons_of_mem _ he)
      · exact .inl hx'
      · exact .inr ⟨event :: before, after, u, rfl, .cons hfresh hhands h hbefore, hafter, hqueue⟩
    · exact .inr ⟨[event], events, t, rfl, .cons hfresh hhands h (.nil t), hrest, hqueue⟩

/-- An instance nobody waits in. -/
structure Idle (s : Instance) : Prop where
  registered : ∀ x, x ∈ s.parserMap → x ≠ 0 ∧ s.Registered x
  waiters : ∀ dcId, s.waiters dcId = []

theorem Idle.carried (h : s.Idle) : s.Carried where
  registered := h.registered
  inFlight := fun dcId hne => absurd (h.waiters dcId) hne
  callers := fun dcId x hx => absurd hx (by simp [h.waiters dcId])

/-- The answer to an import leaves nobody waiting for it. -/
theorem answered_import_waiters {session : ShiftedDcId} (hs : s.Carried)
    (hhandler : s.parserMap[requestId]? = some .importAuth)
    (h : s.step (.answered session requestId .result now later) = some s') :
    s'.waiters (bareDcId (s.dcWithShift requestId)) = [] := by
  have hregistered := (hs.registered requestId ((mem_iff_exists _ _).mpr ⟨_, hhandler⟩)).2
  obtain ⟨dc, hdc⟩ := (mem_iff_exists _ _).mp hregistered.2
  have hcalled := called_forget session requestId s
  have hfind : (s.forget session requestId).parserMap[requestId]? = some .importAuth := by
    rw [forget_same]
    exact hhandler
  rw [step, execCallback, hfind] at h
  obtain ⟨t, ht, rfl⟩ := Option.map_eq_some_iff.mp h
  rw [done, importDone, hcalled.dcs, hdc] at ht
  obtain ⟨u, -, rfl⟩ := Option.map_eq_some_iff.mp ht
  rw [dcWithShift_eq hdc]
  exact (waiters_setWaiters (bareDcId dc) (bareDcId dc) [] u).trans (if_pos rfl)

/-- While requests wait, an export or import for them is on its way. A request that waits goes on
to wait until it is sent again, unless it is settled before, and none waits once an import is
answered. -/
theorem runs_handOn {before after : List Event} (hs : s.Idle) (hbefore : Runs s before t)
    (hafter : Runs t after s') :
    (∀ dcId, s'.waiters dcId ≠ [] → s'.AuthInFlight dcId) ∧
      (∀ dcId x, x ∈ t.waiters dcId → t.Registered x → (∀ event ∈ after, ¬event.Settles x) →
        x ∈ s'.waiters dcId ∨ ∃ first rest u, after = first ++ rest ∧ Runs t first u ∧
          Runs u rest s' ∧ u.InSendQueue x) ∧
      ∀ session requestId now later u, s'.parserMap[requestId]? = some .importAuth →
        s'.step (.answered session requestId .result now later) = some u →
          u.waiters (bareDcId (s'.dcWithShift requestId)) = [] := by
  have ht := hbefore.carried hs.carried
  have hs' := hafter.carried ht
  exact ⟨fun dcId hne => (hs'.inFlight dcId hne).2,
    fun dcId x hx hregistered hopen => hafter.handed ht hx hregistered hopen,
    fun session requestId now later u hhandler h => answered_import_waiters hs' hhandler h⟩

/-- Signed in in dc 2, with a request to dc 4. -/
def oneRequest : Instance where
  mainDcId := 2
  mainSession := some 2
  hasAuthorization := true
  sessions := (Std.TreeMap.empty.insert 2 {}).insert 4 { haveSent := Std.TreeSet.empty.insert 1 }
  requestsByDc := Std.TreeMap.empty.insert 1 4
  parserMap := Std.TreeMap.empty.insert 1 (.caller fun _ => false)
  requestMap := Std.TreeMap.empty.insert 1 {}
  globalAtomicRequestId := 1

theorem oneRequest_idle : oneRequest.Idle where
  registered := fun x hx => by
    obtain hx | hx := Std.TreeMap.mem_insert.mp hx
    · rw [← Std.LawfulEqCmp.compare_eq_iff_eq.mp hx]
      exact ⟨by decide, by decide, by decide⟩
    · exact absurd hx (by simp)
  waiters := fun dcId => by simp [waiters, oneRequest]

def notAuthorized : Event :=
  .answered 4 1 (.error ⟨401, "AUTH_KEY_UNREGISTERED", by decide⟩) 0 0

/-- The import fails, and the request goes on to wait. -/
theorem importFail_forgets :
    oneRequest.Idle ∧ ∃ s', [notAuthorized, .sends 2 2, .answered 2 2 .result 0 0, .sends 4 3,
        .answered 4 3 (.error ⟨400, "AUTH_BYTES_INVALID", by decide⟩) 0 0].foldlM step oneRequest =
          some s' ∧
      s'.waiters 4 = [1] ∧ s'.Registered 1 ∧ ¬s'.AuthInFlight 4 := by
  let events : List Event := [notAuthorized, .sends 2 2, .answered 2 2 .result 0 0, .sends 4 3,
    .answered 4 3 (.error ⟨400, "AUTH_BYTES_INVALID", by decide⟩) 0 0]
  have hend : (events.foldlM step oneRequest).map (fun s => (s.waiters 4,
      decide (s.Registered 1), s.parserMap.keys, decide (s.IsAuth 1))) =
        some ([1], true, [1], false) := by
    decide
  obtain ⟨s', hs', hend⟩ := Option.map_eq_some_iff.mp hend
  obtain ⟨hwaiters, hrest⟩ := Prod.mk.inj hend
  obtain ⟨hregistered, hrest⟩ := Prod.mk.inj hrest
  obtain ⟨hkeys, hnot⟩ := Prod.mk.inj hrest
  refine ⟨oneRequest_idle, s', hs', hwaiters, of_decide_eq_true hregistered, ?_⟩
  rintro ⟨x, hx, -⟩
  have hone : x = 1 := by
    have hmem := Std.TreeMap.mem_keys.mpr hx.isAuth.handled
    rwa [hkeys, List.mem_singleton] at hmem
  exact of_decide_eq_false hnot (hone ▸ hx.isAuth)

theorem runs_handOn_notAuthorized :
    ∃ t, oneRequest.step notAuthorized = some t ∧ t.waiters 4 = [1] ∧
      ∀ dcId, t.waiters dcId ≠ [] → t.AuthInFlight dcId := by
  have hfresh : oneRequest.NextIsFresh :=
    ⟨by decide, by decide, by decide,
      fun dcId => by simp [waiters, oneRequest]⟩
  have hhands : oneRequest.HandsOn notAuthorized := by
    have hcaller : ¬oneRequest.IsAuth 1 := by decide
    exact ⟨fun hauth => absurd hauth hcaller, fun _ => .inl (by decide)⟩
  have hwaiters : (oneRequest.step notAuthorized).map (waiters 4) = some [1] := by decide
  obtain ⟨t, ht, hwaiters⟩ := Option.map_eq_some_iff.mp hwaiters
  exact ⟨t, ht, hwaiters,
    (runs_handOn oneRequest_idle (.cons hfresh hhands ht (.nil t)) (.nil t)).1⟩

end Bettergram.Mtproto.Instance
