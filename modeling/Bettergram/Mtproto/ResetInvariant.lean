import Bettergram.Mtproto.ClockCalls
import Bettergram.Mtproto.HandleInvariant
import Bettergram.Mtproto.PlacingInvariant

/-! # A new session with at most one new id

When a session is reset, the requests keep their ids, but those above the new
one of the clock. One of them can be renamed without a loss.
-/

namespace Bettergram.Mtproto
open Foundation

namespace SessionData

variable {clock : ℕ → MsgId} {awaiting : Awaiting} {waiting : Set RequestRef}
  {s t : SessionData} {ref : RequestRef} {msgId newId : MsgId}

/-- An id of a request that waits is kept in `toResend`. -/
theorem Inv.insertLost (h : Inv clock awaiting waiting s) (hw : ref ∈ waiting)
    (hid : (s.requests ref).msgId = msgId) {requestId : RequestId}
    (hreq : (s.requests ref).requestId = requestId) (hgiven : s.Given clock msgId)
    (hsent : s.haveSent[msgId]? = none) :
    Inv clock awaiting waiting { s with toResend := s.toResend.insert msgId requestId } := by
  subst hreq
  have hinsert : ∀ (m : MsgId) (k : RequestId),
      (s.toResend.insert msgId (s.requests ref).requestId)[m]? = some k →
        m = msgId ∧ k = (s.requests ref).requestId ∨ s.toResend[m]? = some k := by
    intro m k hk
    rw [insert_getElem?] at hk
    split_ifs at hk with heq
    · exact .inl ⟨heq.symm, (Option.some.inj hk).symm⟩
    · exact .inr hk
  have hlt := h.waits ref hw
  refine { h with
    sent := fun m ref' hm hk0 lost hlost => ?_
    toResend := fun m k hk => ?_
    lost := fun m k hk hk0 ref' hw' hreq => ?_
    unsent := fun m k hk => ?_
    awaits := fun k ref' hk => ?_ }
  · obtain ⟨-, hk⟩ | hlost := hinsert _ _ hlost
    · obtain rfl := h.requestIds ref' (h.haveSent m ref' hm).1 ref hlt hk0 hk
      exact h.apart _ hw m hm
    · exact h.sent m ref' hm hk0 lost hlost
  · obtain ⟨rfl, rfl⟩ | hk := hinsert m k hk
    · exact ⟨hgiven, ref, hlt, rfl⟩
    · exact h.toResend m k hk
  · subst hreq
    obtain ⟨rfl, hsame⟩ | hk := hinsert m _ hk
    · obtain rfl := h.requestIds ref' (h.waits ref' hw') ref hlt hk0 hsame
      exact hid
    · exact h.lost m _ hk hk0 ref' hw' rfl
  · obtain ⟨rfl, -⟩ | hk := hinsert m k hk
    · exact hsent
    · exact h.unsent m k hk
  · have ha := h.awaits k ref' hk
    exact ⟨ha.stored, ha.hasCallbacks, ha.place, ha.date⟩

theorem Inv.renameAcked (h : Inv clock awaiting waiting s) (hgiven : s.Given clock newId)
    (msgId : MsgId) :
    Inv clock awaiting waiting { s with wereAcked := rename s.wereAcked msgId newId } := by
  refine h.loses { Loses.refl clock _ _ _ with wereAcked := fun m hm => ?_ }
  obtain rfl | hm := mem_rename hm
  · exact .inr (.inr hgiven)
  · exact .inl hm

/-- A request that waits gets another id, with its entry in `toResend`. -/
theorem Inv.renameLost (h : Inv clock awaiting waiting s) (hfresh : Fresh clock newId s)
    (hw : ref ∈ waiting) (hid : (s.requests ref).msgId ≠ 0)
    (hresend : s.toResend[msgId]? = some (s.requests ref).requestId) :
    Inv clock awaiting waiting
      ((s.update ref { s.requests ref with msgId := newId }).renameInMaps msgId newId) := by
  have herased := h.erase_toResend msgId
  have hlost : (s.requests ref).requestId ≠ 0 → ref ∈ waiting →
      ∀ m : MsgId, (s.toResend.erase msgId)[m]? ≠ some (s.requests ref).requestId := by
    intro hne _ m hm
    obtain ⟨hm', hm⟩ := getElem?_of_erase hm
    exact hm' ((h.lost msgId _ hresend hne ref hw rfl).symm.trans (h.lost m _ hm hne ref hw rfl))
  have hset := herased.setMsgId (d := { s.requests ref with msgId := newId })
    (.inr (hfresh.erase_toResend msgId).toUnused) (h.apart ref hw) hlost rfl fun k hk hc => by
      have hcall := (h.stored k ref hk).2.2 hc
      exact ⟨⟨hcall.call.body, hcall.call.type, hcall.call.length⟩, fun _ => hcall.seqNo hid⟩
  have hself : (s.update ref { s.requests ref with msgId := newId }).requests ref =
    { s.requests ref with msgId := newId } := s.update_requests_self ref _
  have hinsert := hset.insertLost hw (congrArg (·.msgId) hself) (congrArg (·.requestId) hself)
    hfresh.given (hfresh.notSent h)
  have hmaps : (s.update ref { s.requests ref with msgId := newId }).renameInMaps msgId newId =
      { s.update ref { s.requests ref with msgId := newId } with
        toResend := (s.toResend.erase msgId).insert newId (s.requests ref).requestId
        wereAcked := rename s.wereAcked msgId newId } := by
    have hsent : rename s.haveSent msgId newId = s.haveSent :=
      rename_of_none (h.unsent msgId _ hresend)
    have hresend' : rename s.toResend msgId newId =
        (s.toResend.erase msgId).insert newId (s.requests ref).requestId := by
      rw [rename, hresend]
    rw [renameInMaps]
    simp only [SessionData.update, hsent, hresend']
  rw [hmaps]
  exact hinsert.renameAcked hfresh.given msgId

/-- A request that was sent gets another id, with its entry in `haveSent`. -/
theorem Inv.renameSent (h : Inv clock awaiting waiting s) (hfresh : Fresh clock newId s)
    (hsent : s.haveSent[msgId]? = some ref) :
    Inv clock awaiting waiting
      ((s.update ref { s.requests ref with msgId := newId }).renameInMaps msgId newId) := by
  obtain ⟨hlt, hid, hne⟩ := h.haveSent msgId ref hsent
  have hnew : ref ∉ waiting := fun hw => h.apart ref hw msgId hsent
  have hloose : ∀ m : MsgId, (s.haveSent.erase msgId)[m]? ≠ some ref := by
    intro m hm
    obtain ⟨hm', hm⟩ := getElem?_of_erase hm
    exact hm' (hid.symm.trans (h.haveSent m ref hm).2.1)
  have hlost : (s.requests ref).requestId ≠ 0 →
      ∀ m : MsgId, s.toResend[m]? ≠ some (s.requests ref).requestId := h.sent msgId ref hsent
  have hself : (s.update ref { s.requests ref with msgId := newId }).requests ref =
    { s.requests ref with msgId := newId } := s.update_requests_self ref _
  have hlost' : ((s.update ref { s.requests ref with msgId := newId }).requests ref).requestId ≠ 0 →
      ∀ m : MsgId, s.toResend[m]? ≠
        some ((s.update ref { s.requests ref with msgId := newId }).requests ref).requestId := by
    rw [hself]
    exact hlost
  -- the request is taken out, gets its id while it is nowhere, and is sent again
  have hout : Inv clock (fun k => if awaiting k = some ref then none else awaiting k) waiting
      { s with haveSent := s.haveSent.erase msgId } := by
    have hsub : ∀ k ref', (if awaiting k = some ref then none else awaiting k) = some ref' →
        awaiting k = some ref' ∧ ref' ≠ ref := by
      intro k ref' hk
      split_ifs at hk with heq
      exact ⟨hk, fun hsame => heq (hsame ▸ hk)⟩
    refine (h.mono fun k ref' hk => (hsub k ref' hk).1).loses { Loses.refl _ _ _ _ with
      haveSent := fun hm => (getElem?_of_erase hm).2
      place := fun {k ref'} hk => ⟨id, fun m hm => ?_⟩ }
    refine (erase_getElem? _ _ _).trans ((if_neg ?_).trans hm)
    rintro rfl
    exact (hsub k ref' hk).2 (Option.some.inj (hm.symm.trans hsent))
  have hset := hout.setMsgId (d := { s.requests ref with msgId := newId })
    (.inr ⟨hfresh.given, hfresh.unused, hfresh.ping⟩) hloose
    (fun _ hw => absurd hw hnew) rfl fun k hk hc => by
      have hcall := (h.stored k ref hk).2.2 hc
      exact ⟨⟨hcall.call.body, hcall.call.type, hcall.call.length⟩,
        fun _ => hcall.seqNo (hid.symm ▸ hne)⟩
  have hwait := hset.wait hlt hloose hlost' (fun _ => id) (fun _ hw _ => Set.mem_insert_of_mem ref hw)
    (Set.mem_insert _ _)
  have hall : Inv clock awaiting (insert ref waiting)
      { s.update ref { s.requests ref with msgId := newId } with
        haveSent := s.haveSent.erase msgId } := by
    refine { hwait with awaits := fun k ref' hk => ?_ }
    by_cases heq : ref' = ref
    · have ha := h.awaits k ref' hk
      exact ⟨ha.stored, ha.hasCallbacks, .inl (.inl heq), fun hm => absurd (heq ▸ hm) (hloose _)⟩
    · refine hwait.awaits k ref' ?_
      rw [if_neg, hk]
      rw [hk]
      exact fun hsame => heq (Option.some.inj hsame)
  have hsend := hall.send (Set.mem_insert _ _) (congrArg (·.msgId) hself) hfresh.notZero
    hfresh.toResend hlost' fun k hk => by
      have hdate := (h.awaits k ref hk).date (hid.symm ▸ hsent)
      exact (congrArg (·.msDate) hself).symm ▸ hdate
  rw [Set.insert_sdiff_self_of_notMem hnew] at hsend
  have hmaps : (s.update ref { s.requests ref with msgId := newId }).renameInMaps msgId newId =
      { s.update ref { s.requests ref with msgId := newId } with
        haveSent := (s.haveSent.erase msgId).insert newId ref
        wereAcked := rename s.wereAcked msgId newId } := by
    have hnone : s.toResend[msgId]? = none := by
      by_contra hsome
      obtain ⟨k, hk⟩ := Option.ne_none_iff_exists'.mp hsome
      exact absurd (h.unsent msgId k hk) (by simp [hsent])
    have hresend : rename s.toResend msgId newId = s.toResend := rename_of_none hnone
    have hsent' : rename s.haveSent msgId newId = (s.haveSent.erase msgId).insert newId ref := by
      rw [rename, hsent]
    rw [renameInMaps]
    simp only [SessionData.update, hresend, hsent']
  rw [hmaps]
  exact hsend.renameAcked hfresh.given msgId

/-- The request is kept under the id: it was sent with it, or it is to be sent again. -/
inductive KeptUnder (s : SessionData) (msgId : MsgId) (ref : RequestRef) : Prop
  | sent (h : s.haveSent[msgId]? = some ref)
  | lost (requestId : RequestId) (hresend : s.toResend[msgId]? = some requestId)
      (hwaits : s.toSend[requestId]? = some ref)

theorem Kept.renameId (h : Kept clock awaiting s) (hfresh : Fresh clock newId s)
    (hunder : KeptUnder s msgId ref) (hid : (s.requests ref).msgId ≠ 0) :
    Kept clock awaiting
      ((s.update ref { s.requests ref with msgId := newId }).renameInMaps msgId newId) := by
  refine ⟨?_, fun k ref' hk => (update_requestId (by rfl) ref').trans (h.toSend k ref' hk)⟩
  cases hunder with
  | sent hsent => exact h.inv.renameSent hfresh hsent
  | lost requestId hresend hwaits =>
    exact h.inv.renameLost hfresh ⟨requestId, hwaits⟩ hid ((h.toSend _ ref hwaits).symm ▸ hresend)

/-! ## The loop for the new ids -/

theorem mem_requestsToReset (h : (msgId, ref) ∈ s.requestsToReset) : KeptUnder s msgId ref := by
  obtain hmem | hmem := List.mem_append.mp h
  · exact .sent (Std.TreeMap.mem_toList_iff_getElem?_eq_some.mp hmem)
  · obtain ⟨⟨lost, requestId⟩, hlost, heq⟩ := List.mem_filterMap.mp hmem
    obtain ⟨request, hwaits, heq⟩ := Option.map_eq_some_iff.mp heq
    obtain ⟨rfl, rfl⟩ := Prod.mk.inj heq
    exact .lost requestId (Std.TreeMap.mem_toList_iff_getElem?_eq_some.mp hlost) hwaits

variable {x : Resetting}

/-- A request with an id that is not above the new one keeps it. -/
theorem resetOne_below (clock : ℕ → MsgId) (h : ¬ (x.session.isReset ref ∧ x.newId < msgId)) :
    (resetOne clock x msgId ref).session = x.session ∧
      (resetOne clock x msgId ref).newId = x.newId ∧
        (resetOne clock x msgId ref).replaces = x.replaces := by
  rw [resetOne]
  dsimp only
  split_ifs with hskip habove
  · exact ⟨rfl, rfl, rfl⟩
  · refine absurd ⟨?_, habove⟩ h
    rw [not_or] at hskip
    simp [isReset, hskip]
  · exact ⟨rfl, rfl, rfl⟩

theorem resetAll_below (clock : ℕ → MsgId) {requests : List (MsgId × RequestRef)}
    (h : ∀ y ∈ requests, ¬ (x.session.isReset y.2 ∧ x.newId < y.1)) :
    (requests.foldl (fun x y => resetOne clock x y.1 y.2) x).session = x.session ∧
      (requests.foldl (fun x y => resetOne clock x y.1 y.2) x).replaces = x.replaces := by
  induction requests generalizing x with
  | nil => exact ⟨rfl, rfl⟩
  | cons y requests ih =>
    obtain ⟨hsession, hnewId, hreplaces⟩ := resetOne_below clock (h y (by simp))
    obtain ⟨hsession', hreplaces'⟩ := ih (x := resetOne clock x y.1 y.2) (by
      rw [hsession, hnewId]
      exact fun z hz => h z (by simp [hz]))
    exact ⟨hsession'.trans hsession, hreplaces'.trans hreplaces⟩

/-- With one request above the new id, this is the only one that gets another. -/
theorem resetAll_one (h : Inv clock awaiting waiting x.session)
    (hfresh : Fresh clock x.newId x.session) (hreplaces : x.replaces = ∅)
    {requests : List (MsgId × RequestRef)}
    (hone : requests.countP (fun y => x.session.isReset y.2 && x.newId < y.1) ≤ 1) :
    let y := requests.foldl (fun x y => resetOne clock x y.1 y.2) x
    (y.session = x.session ∧ y.replaces = ∅) ∨
      ∃ z ∈ requests, x.session.isReset z.2 ∧
        y.session = x.session.update z.2 { x.session.requests z.2 with msgId := x.newId } ∧
        y.replaces = Std.TreeMap.empty.insert z.1 x.newId := by
  induction requests generalizing x with
  | nil => exact .inl ⟨rfl, hreplaces⟩
  | cons z requests ih =>
    rw [List.countP_cons] at hone
    by_cases habove : x.session.isReset z.2 ∧ x.newId < z.1
    · obtain ⟨hreset, hlt⟩ := habove
      have hrest : requests.countP (fun y => x.session.isReset y.2 && x.newId < y.1) = 0 := by
        simp only [hreset, hlt, decide_true, Bool.and_self, if_true] at hone
        omega
      have hskip : ¬ ((x.session.requests z.2).isSentContainer ∨
          (x.session.requests z.2).msgId = 0) := by
        simpa [isReset, not_or] using hreset
      let d := { x.session.requests z.2 with msgId := x.newId }
      have hstep : (resetOne clock x z.1 z.2).session = x.session.update z.2 d ∧
          (resetOne clock x z.1 z.2).newId = x.newId ∧
            (resetOne clock x z.1 z.2).replaces = x.replaces.insert z.1 x.newId := by
        rw [resetOne]
        dsimp only
        rw [if_neg hskip, if_pos hlt, unusedMsgId_of_unused (hfresh.isUsed h)]
        exact ⟨rfl, rfl, rfl⟩
      obtain ⟨hsession, hnewId, hreplaces'⟩ := hstep
      -- whether a request is reset does not change with its id
      have hsame : ∀ ref, (x.session.update z.2 d).isReset ref = x.session.isReset ref := by
        intro ref
        by_cases heq : ref = z.2
        · have hcontainer : (x.session.requests z.2).isSentContainer = false := by
            simpa using (not_or.mp hskip).1
          have hd : d.isSentContainer = false := hcontainer
          rw [isReset, isReset, heq, update_requests_self, hcontainer, hd]
          simp [d, hfresh.notZero, (not_or.mp hskip).2]
        · rw [isReset, isReset, update_requests_of_ne heq]
      have hbelow : ∀ y ∈ requests, ¬ ((resetOne clock x z.1 z.2).session.isReset y.2 ∧
          (resetOne clock x z.1 z.2).newId < y.1) := by
        intro y hy
        rw [hsession, hnewId, hsame]
        simpa using List.countP_eq_zero.mp hrest y hy
      obtain ⟨hsession', hreplaces''⟩ := resetAll_below clock hbelow
      exact .inr ⟨z, by simp, hreset, hsession'.trans hsession,
        by rw [List.foldl_cons, hreplaces'', hreplaces', hreplaces]; rfl⟩
    · obtain ⟨hsession, hnewId, hreplaces'⟩ := resetOne_below clock habove
      have hrest := ih (x := resetOne clock x z.1 z.2) (hsession ▸ h)
        (by rw [hsession, hnewId]; exact hfresh) (hreplaces'.trans hreplaces)
        (by rw [hsession, hnewId]; omega)
      rw [hsession, hnewId] at hrest
      refine hrest.imp id fun hsome => ?_
      obtain ⟨y, hy, hrest⟩ := hsome
      exact ⟨y, List.mem_cons_of_mem z hy, hrest⟩

/-! ## New numbers -/

theorem Kept.renumber (h : Kept clock awaiting s) (ref : RequestRef) :
    Kept clock awaiting (renumber s ref) := by
  have hnumbered : Kept clock awaiting
      (s.nextRequestSeqNumber ((s.requests ref).seqNo &&& 1 = 1)).2 := h.loses { Loses.refl _ _ _ _ with } fun _ _ => id
  refine hnumbered.update ref rfl rfl ⟨fun hc => ⟨hc.body, hc.type, hc.length⟩, fun hodd => ?_⟩
    fun _ _ _ => id
  have hodd : (s.requests ref).seqNo &&& 1 = 1 := hodd
  simp only [hodd, decide_true, if_true]
  exact odd_seqNo s.messagesSent

theorem Kept.renumberAll (h : Kept clock awaiting s) (refs : List RequestRef) :
    Kept clock awaiting (refs.foldl SessionData.renumber s) := by
  induction refs generalizing s with
  | nil => exact h
  | cons ref refs ih => exact ih (h.renumber ref)

/-- The numbers are given before the ids change in the maps. -/
theorem renumberAll_renameInMaps (refs : List RequestRef) (s : SessionData) (msgId newId : MsgId) :
    (refs.foldl SessionData.renumber s).renameInMaps msgId newId =
      refs.foldl SessionData.renumber (s.renameInMaps msgId newId) := by
  induction refs generalizing s with
  | nil => rfl
  | cons ref refs ih => exact ih _

theorem toList_insert_empty (k v : MsgId) :
    ((Std.TreeMap.empty : Std.TreeMap MsgId MsgId).insert k v).toList = [(k, v)] := by
  have hempty : (Std.TreeMap.empty : Std.TreeMap MsgId MsgId).toList = [] := rfl
  have hperm := Std.TreeMap.toList_insert_perm (t := (Std.TreeMap.empty : Std.TreeMap MsgId MsgId))
    (k := k) (v := v)
  rw [hempty, List.filter_nil] at hperm
  exact List.perm_singleton.mp hperm

theorem Kept.resetSession (h : Kept clock awaiting s)
    (hclock : NewIds clock (s.resetSession clock).msgIdCalls) (hone : s.OneIdAbove clock) :
    Kept clock awaiting (s.resetSession clock) := by
  obtain ⟨hinv, hfresh⟩ := h.inv.nextMsgId (hclock.mono (s.resetSession_calls clock))
  have hnext : Kept clock awaiting (s.nextMsgId clock).2 := ⟨hinv, h.toSend⟩
  have hone : (s.nextMsgId clock).2.requestsToReset.countP (fun x =>
    (s.nextMsgId clock).2.isReset x.2 && (s.nextMsgId clock).1 < x.1) ≤ 1 := hone
  have hall := resetAll_one (x := { session := (s.nextMsgId clock).2, newId := (s.nextMsgId clock).1 })
    hinv hfresh rfl hone
  rw [SessionData.resetSession]
  dsimp only at hall ⊢
  generalize hy : (s.nextMsgId clock).2.requestsToReset.foldl _ _ = y at *
  have hclear : ∀ u : SessionData, Kept clock awaiting u → Kept clock awaiting
      { u with ackRequestData := [], resendRequestData := [], stateRequest := ∅ } :=
    fun u hu => hu.loses { Loses.refl _ _ _ _ with } fun _ _ => id
  have hcontainers : ∀ (u : SessionData) (f : MsgId → MsgId), Kept clock awaiting u →
      Kept clock awaiting (u.renameInContainers f) := by
    refine fun u f hu => ⟨hu.inv.renameInContainers f, fun k ref hk => ?_⟩
    obtain ⟨body, hbody⟩ := renameInContainers_same f u ref
    exact (congrArg (·.requestId) hbody).trans (hu.toSend k ref hk)
  refine hclear _ (hcontainers _ _ ?_)
  obtain ⟨hsession, hreplaces⟩ | ⟨z, hz, hreset, hsession, hreplaces⟩ := hall
  · have hempty : y.replaces.toList = [] := by
      rw [hreplaces]
      rfl
    rw [hempty, hsession]
    have hstart : Kept clock awaiting { (s.nextMsgId clock).2 with messagesSent := 0 } :=
      hnext.loses { Loses.refl _ _ _ _ with } fun _ _ => id
    exact hstart.renumberAll _
  · have hid : ((s.nextMsgId clock).2.requests z.2).msgId ≠ 0 := by
      rw [isReset, Bool.and_eq_true, decide_eq_true_eq] at hreset
      exact hreset.2
    have hrename := hnext.renameId hfresh (mem_requestsToReset hz) hid
    rw [hreplaces, toList_insert_empty, hsession, List.foldl_cons, List.foldl_nil,
      renumberAll_renameInMaps]
    have hstart : Kept clock awaiting (({ (s.nextMsgId clock).2.update z.2
        { (s.nextMsgId clock).2.requests z.2 with msgId := (s.nextMsgId clock).1 } with
          messagesSent := 0 } : SessionData).renameInMaps z.1 (s.nextMsgId clock).1) :=
      hrename.loses { Loses.refl _ _ _ _ with } fun _ _ => id
    exact hstart.renumberAll _

end SessionData

end Bettergram.Mtproto
