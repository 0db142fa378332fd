import Bettergram.Mtproto.Instance

/-! # Where a request is

A request that is to be sent again is in the queue of a session, among the
delayed ones, or waits for an authorization that is being carried over.
-/

namespace Bettergram.Mtproto.Instance
open Foundation

/-- It can be sent again when its time comes. -/
def Registered (requestId : RequestId) (s : Instance) : Prop :=
  requestId ∈ s.requestMap ∧ requestId ∈ s.requestsByDc

instance (requestId : RequestId) (s : Instance) : Decidable (s.Registered requestId) :=
  inferInstanceAs (Decidable (requestId ∈ s.requestMap ∧ requestId ∈ s.requestsByDc))

/-- A session has such a queue. -/
def Holds (p : SessionQueue → Prop) (s : Instance) : Prop :=
  ∃ (session : ShiftedDcId) (queue : SessionQueue), s.sessions[session]? = some queue ∧ p queue

def InSendQueue (requestId : RequestId) (s : Instance) : Prop := s.Holds (requestId ∈ ·.toSend)

def Sent (requestId : RequestId) (s : Instance) : Prop := s.Holds (requestId ∈ ·.haveSent)

def Delayed (requestId : RequestId) (s : Instance) : Prop :=
  requestId ∈ s.delayedRequests.map Prod.fst

/-- It is sent or will be sent by a session or by the timer. -/
def Travels (requestId : RequestId) (s : Instance) : Prop :=
  s.InSendQueue requestId ∨ s.Sent requestId ∨ s.Delayed requestId

/-- A request carries the authorization over to a data center. -/
def AuthFor (dcId : DcId) (requestId : RequestId) (s : Instance) : Prop :=
  (∃ target, s.parserMap[requestId]? = some .exportAuth ∧
    s.authExportRequests[requestId]? = some target ∧ bareDcId target = dcId) ∨
  ∃ target, s.parserMap[requestId]? = some .importAuth ∧
    s.requestsByDc[requestId]? = some target ∧ bareDcId target = dcId

def AuthInFlight (dcId : DcId) (s : Instance) : Prop :=
  ∃ requestId, s.AuthFor dcId requestId ∧ s.Travels requestId

/-- It will be sent again. -/
def Scheduled (requestId : RequestId) (s : Instance) : Prop :=
  s.InSendQueue requestId ∨ s.Delayed requestId ∨
    ∃ dcId, requestId ∈ s.waiters dcId ∧ s.AuthInFlight dcId

@[simp] theorem waiters_setWaiters (dcId d : DcId) (l : List RequestId) (s : Instance) :
    (s.setWaiters dcId l).waiters d = if dcId = d then l else s.waiters d := by
  simp only [waiters, setWaiters, insert_getElem?]
  split_ifs <;> rfl

/-! ## Sessions

What a call does to the sessions is said of the requests in them.
-/

/-- Nothing else than the sessions may have changed, and the requests in them are the same but for
some more in the queues. -/
structure Queues (more : RequestId → Prop) (s s' : Instance) : Prop where
  same : s' = { s with sessions := s'.sessions }
  toSend : ∀ x, s'.InSendQueue x ↔ s.InSendQueue x ∨ more x
  haveSent : ∀ x, s'.Sent x ↔ s.Sent x

theorem Queues.trans {more more' : RequestId → Prop} {s s' s'' : Instance} (h : Queues more s s')
    (h' : Queues more' s' s'') : Queues (fun x => more x ∨ more' x) s s'' where
  same := by
    rw [h'.same, h.same]
  toSend := fun x => by rw [h'.toSend, h.toSend, or_assoc]
  haveSent := fun x => by rw [h'.haveSent, h.haveSent]

theorem Queues.refl (s : Instance) : Queues (fun _ => False) s s :=
  ⟨rfl, fun x => by rw [or_false], fun x => Iff.rfl⟩

theorem holds_insertIfNew {p : SessionQueue → Prop} (hp : ¬p {}) (session : ShiftedDcId)
    (s : Instance) :
    { s with sessions := s.sessions.insertIfNew session {} }.Holds p ↔ s.Holds p := by
  have hfind : ∀ k, (s.sessions.insertIfNew session {})[k]? =
      (s.sessions[k]?).or (if session = k then some {} else none) :=
    fun k => insertIfNew_getElem? _ _ _ _
  constructor
  · rintro ⟨k, q, hq, hx⟩
    rw [hfind] at hq
    cases hk : s.sessions[k]? with
    | some q' =>
      rw [hk, Option.some_or] at hq
      exact ⟨k, q, hk.trans hq, hx⟩
    | none =>
      rw [hk, Option.none_or] at hq
      split_ifs at hq
      obtain rfl := Option.some_injective _ hq
      exact absurd hx hp
  · rintro ⟨k, q, hq, hx⟩
    exact ⟨k, q, by rw [hfind, hq, Option.some_or], hx⟩

/-- A session that is made is empty. -/
theorem queues_insertIfNew (session : ShiftedDcId) (s : Instance) :
    Queues (fun _ => False) s { s with sessions := s.sessions.insertIfNew session {} } := by
  refine ⟨rfl, fun x => ?_, fun x => ?_⟩
  · rw [or_false]
    exact holds_insertIfNew (by simp) session s
  · exact holds_insertIfNew (by simp) session s

theorem queues_getSession {shiftedDcId session : ShiftedDcId} {s s' : Instance}
    (h : s.getSession shiftedDcId = some (s', session)) : Queues (fun _ => False) s s' := by
  rw [getSession] at h
  split_ifs at h
  · obtain ⟨main, -, h⟩ := Option.map_eq_some_iff.mp h
    obtain rfl := (Prod.mk.inj h).1
    exact .refl s
  · obtain ⟨main, -, h⟩ := Option.map_eq_some_iff.mp h
    obtain rfl := (Prod.mk.inj h).1
    exact queues_insertIfNew _ s
  · obtain rfl := (Prod.mk.inj (Option.some_injective _ h)).1
    exact queues_insertIfNew _ s

theorem queues_sendPrepared (session : ShiftedDcId) (requestId : RequestId) (s : Instance) :
    Queues (· = requestId) s (s.sendPrepared session requestId) := by
  have hfind : ∀ k, (s.sendPrepared session requestId).sessions[k]? = if session = k then
      some { (s.sessions[session]?).getD {} with
        toSend := ((s.sessions[session]?).getD {}).toSend.insert requestId }
      else s.sessions[k]? := fun k => insert_getElem? _ _ _ _
  refine ⟨rfl, fun x => ⟨?_, ?_⟩, fun x => ⟨?_, ?_⟩⟩
  · rintro ⟨k, q, hq, hx⟩
    rw [hfind] at hq
    split_ifs at hq with hk
    · subst hk
      obtain rfl := Option.some_injective _ hq
      obtain hx | hx := Std.TreeSet.mem_insert.mp hx
      · exact .inr (Std.LawfulEqCmp.compare_eq_iff_eq.mp hx).symm
      · cases hs : s.sessions[session]? with
        | none => simp [hs] at hx
        | some q => exact .inl ⟨session, q, hs, by simpa [hs] using hx⟩
    · exact .inl ⟨k, q, hq, hx⟩
  · rintro (⟨k, q, hq, hx⟩ | rfl)
    · by_cases hk : session = k
      · subst hk
        refine ⟨session, _, by rw [hfind, if_pos rfl], Std.TreeSet.mem_insert.mpr (.inr ?_)⟩
        simpa [hq] using hx
      · exact ⟨k, q, by rw [hfind, if_neg hk, hq], hx⟩
    · exact ⟨session, _, by rw [hfind, if_pos rfl], Std.TreeSet.mem_insert_self⟩
  · rintro ⟨k, q, hq, hx⟩
    rw [hfind] at hq
    split_ifs at hq with hk
    · subst hk
      obtain rfl := Option.some_injective _ hq
      cases hs : s.sessions[session]? with
      | none => simp [hs] at hx
      | some q => exact ⟨session, q, hs, by simpa [hs] using hx⟩
    · exact ⟨k, q, hq, hx⟩
  · rintro ⟨k, q, hq, hx⟩
    by_cases hk : session = k
    · subst hk
      exact ⟨session, _, by rw [hfind, if_pos rfl], by simpa [hq] using hx⟩
    · exact ⟨k, q, by rw [hfind, if_neg hk, hq], hx⟩

theorem queues_sendTo {shiftedDcId : ShiftedDcId} {requestId : RequestId} {s s' : Instance}
    (h : s.sendTo shiftedDcId requestId = some s') : Queues (· = requestId) s s' := by
  obtain ⟨⟨t, session⟩, ht, rfl⟩ := Option.map_eq_some_iff.mp h
  have := (queues_getSession ht).trans (queues_sendPrepared session requestId t)
  simpa only [false_or] using this

/-! ## The delayed requests -/

theorem queues_resendDelayed {requestId : RequestId} {s s' : Instance}
    (h : s.resendDelayed requestId = some s') :
    Queues (fun x => x = requestId ∧ s.Registered x) s s' := by
  rw [resendDelayed] at h
  cases hdc : s.requestsByDc[requestId]? with
  | none =>
    rw [hdc] at h
    obtain rfl := Option.some_injective _ h
    refine ⟨rfl, fun x => ⟨.inl, ?_⟩, fun x => Iff.rfl⟩
    rintro (hx | ⟨rfl, hx⟩)
    · exact hx
    · exact absurd hx.2 ((notMem_iff_none _ _).mpr hdc)
  | some dc =>
    simp only [hdc] at h
    split_ifs at h with hmem
    · have hregistered : s.Registered requestId := ⟨hmem, (mem_iff_exists _ _).mpr ⟨dc, hdc⟩⟩
      have hqueues := queues_sendTo h
      refine ⟨hqueues.same, fun x => ?_, hqueues.haveSent⟩
      rw [hqueues.toSend]
      constructor
      · rintro (hx | rfl)
        · exact .inl hx
        · exact .inr ⟨rfl, hregistered⟩
      · exact Or.imp_right And.left
    · obtain rfl := Option.some_injective _ h
      refine ⟨rfl, fun x => ⟨.inl, ?_⟩, fun x => Iff.rfl⟩
      rintro (hx | ⟨rfl, hx⟩)
      · exact hx
      · exact absurd hx.1 hmem

/-- The requests that are due leave the queue, those that are known for a session. -/
structure Checked (l : List (RequestId × Time)) (s s' : Instance) : Prop where
  same : s' = { s with sessions := s'.sessions, delayedRequests := s'.delayedRequests }
  left : ∃ due, l = due ++ s'.delayedRequests ∧
    ∀ x, s'.InSendQueue x ↔ s.InSendQueue x ∨ x ∈ due.map Prod.fst ∧ s.Registered x
  haveSent : ∀ x, s'.Sent x ↔ s.Sent x

theorem checked_none (l : List (RequestId × Time)) (s : Instance) :
    Checked l s { s with delayedRequests := l } :=
  ⟨rfl, ⟨[], rfl, fun _ => (or_iff_left (by simp)).symm⟩, fun _ => Iff.rfl⟩

theorem checkDelayed_checked {now : Time} {l : List (RequestId × Time)} {s s' : Instance}
    (h : checkDelayed now l s = some s') : Checked l s s' := by
  induction l generalizing s with
  | nil =>
    obtain rfl := Option.some_injective _ h
    exact checked_none [] s
  | cons e l ih =>
    obtain ⟨requestId, sendAt⟩ := e
    rw [checkDelayed] at h
    split_ifs at h with hdue
    · obtain ⟨t, ht, h⟩ := Option.bind_eq_some_iff.mp h
      have hfirst := queues_resendDelayed ht
      obtain ⟨hsame, ⟨due, hleft, hqueue⟩, hsent⟩ := ih h
      have hregistered : ∀ x, t.Registered x ↔ s.Registered x := fun x => by
        rw [Registered, Registered, hfirst.same]
      refine ⟨?_, ⟨(requestId, sendAt) :: due, by rw [hleft, List.cons_append], fun x => ?_⟩,
        fun x => (hsent x).trans (hfirst.haveSent x)⟩
      · rw [hsame, hfirst.same]
      · rw [hqueue, hfirst.toSend, hregistered, List.map_cons, List.mem_cons]
        tauto
    · obtain rfl := Option.some_injective _ h
      exact checked_none _ s

namespace Checked

variable {l : List (RequestId × Time)} {s s' : Instance} (h : Checked l s s')
include h

theorem registered (x : RequestId) : s'.Registered x ↔ s.Registered x := by
  rw [Registered, Registered, h.same]

theorem authFor (dcId : DcId) (x : RequestId) : s'.AuthFor dcId x ↔ s.AuthFor dcId x := by
  rw [AuthFor, AuthFor, h.same]

theorem waiters_eq (dcId : DcId) : s'.waiters dcId = s.waiters dcId := by
  rw [waiters, waiters, h.same]

/-- A request that was due is sent when it is known. -/
theorem scheduled {x : RequestId} (hx : x ∈ l.map Prod.fst) (hregistered : s.Registered x) :
    s'.InSendQueue x ∨ s'.Delayed x := by
  obtain ⟨due, rfl, hqueue⟩ := h.left
  rw [List.map_append, List.mem_append] at hx
  obtain hx | hx := hx
  · exact .inl ((hqueue x).mpr (.inr ⟨hx, hregistered⟩))
  · exact .inr hx

theorem inSendQueue_of {x : RequestId} (hx : s.InSendQueue x) : s'.InSendQueue x := by
  obtain ⟨due, -, hqueue⟩ := h.left
  exact (hqueue x).mpr (.inl hx)

/-- No request is met that was not there before. -/
theorem of_scheduled {x : RequestId} (hx : s'.InSendQueue x ∨ s'.Delayed x) :
    s.InSendQueue x ∨ x ∈ l.map Prod.fst := by
  obtain ⟨due, rfl, hqueue⟩ := h.left
  rw [List.map_append, List.mem_append]
  obtain hx | hx := hx
  · exact ((hqueue x).mp hx).imp id fun hx => .inl hx.1
  · exact .inr (.inr hx)

theorem travels {x : RequestId} (hx : s.InSendQueue x ∨ s.Sent x ∨ x ∈ l.map Prod.fst)
    (hregistered : s.Registered x) : s'.Travels x := by
  obtain hx | hx | hx := hx
  · exact .inl (h.inSendQueue_of hx)
  · exact .inr (.inl ((h.haveSent x).mpr hx))
  · exact (h.scheduled hx hregistered).imp id .inr

theorem of_travels {x : RequestId} (hx : s'.Travels x) :
    s.InSendQueue x ∨ s.Sent x ∨ x ∈ l.map Prod.fst := by
  obtain hx | hx | hx := hx
  · exact (h.of_scheduled (.inl hx)).imp id .inr
  · exact .inr (.inl ((h.haveSent x).mp hx))
  · exact (h.of_scheduled (.inr hx)).imp id .inr

end Checked

theorem insertDelayed_mem {requestId : RequestId} {sendAt : Time} {l l' : List (RequestId × Time)}
    (h : insertDelayed requestId sendAt l = some l') (e : RequestId × Time) :
    e ∈ l' ↔ e = (requestId, sendAt) ∨ e ∈ l := by
  induction l generalizing l' with
  | nil =>
    obtain rfl := Option.some_injective _ h
    simp
  | cons e' l ih =>
    rw [insertDelayed] at h
    split_ifs at h
    · obtain rfl := Option.some_injective _ h
      simp
    · obtain ⟨k, hk, rfl⟩ := Option.map_eq_some_iff.mp h
      rw [List.mem_cons, ih hk, List.mem_cons]
      tauto

theorem insertDelayed_none {requestId : RequestId} {sendAt : Time} {l : List (RequestId × Time)}
    (h : insertDelayed requestId sendAt l = none) : requestId ∈ l.map Prod.fst := by
  induction l with
  | nil => cases h
  | cons e l ih =>
    rw [insertDelayed] at h
    split_ifs at h with heq
    · exact List.mem_map.mpr ⟨e, List.mem_cons_self, heq⟩
    · exact List.mem_cons_of_mem _ (ih (Option.map_eq_none_iff.mp h))

theorem insertBefore_none {requestId after : RequestId} {l : List (RequestId × Time)}
    (h : insertBefore requestId after l = none) : requestId ∈ l.map Prod.fst := by
  induction l with
  | nil => cases h
  | cons e l ih =>
    rw [insertBefore] at h
    split_ifs at h with heq
    · exact List.mem_map.mpr ⟨e, List.mem_cons_self, heq⟩
    · exact List.mem_cons_of_mem _ (ih (Option.map_eq_none_iff.mp h))

/-- The request stands in the queue when the other one does. -/
theorem insertBefore_mem {requestId after : RequestId} {l l' : List (RequestId × Time)}
    (h : insertBefore requestId after l = some l') (x : RequestId) :
    x ∈ l'.map Prod.fst ↔ x ∈ l.map Prod.fst ∨ x = requestId ∧ after ∈ l.map Prod.fst := by
  induction l generalizing l' with
  | nil =>
    obtain rfl := Option.some_injective _ h
    simp
  | cons e l ih =>
    rw [insertBefore] at h
    split_ifs at h with hrequest hafter
    · obtain rfl := Option.some_injective _ h
      simp only [List.map_cons, List.mem_cons, hafter]
      tauto
    · obtain ⟨k, hk, rfl⟩ := Option.map_eq_some_iff.mp h
      have hne : after ≠ e.1 := Ne.symm hafter
      simp only [List.map_cons, List.mem_cons, ih hk, hne, false_or]
      tauto

end Bettergram.Mtproto.Instance
