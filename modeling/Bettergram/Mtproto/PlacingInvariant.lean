import Bettergram.Mtproto.SessionMoves

/-! # A request gets its id

A request that goes out has an id below that of its container. A new one takes
the id that was for the container, and so does one whose own id is above it.
-/

namespace Bettergram.Mtproto
open Foundation

namespace SessionData

variable {clock : ℕ → MsgId} {awaiting : Awaiting} {waiting : Set RequestRef}
  {s t : SessionData} {ref : RequestRef} {msgId bigMsgId newId : MsgId} {m : SendMoment}

theorem rename_of_none {β : Type} {t : Std.TreeMap MsgId β} {old new : MsgId}
    (h : t[old]? = none) : rename t old new = t := by
  rw [rename, h]

theorem mem_rename {β : Type} {t : Std.TreeMap MsgId β} {old new m : MsgId}
    (h : m ∈ rename t old new) : m = new ∨ m ∈ t := by
  rw [rename] at h
  split at h
  · obtain heq | hm := Std.TreeMap.mem_insert.mp h
    · exact .inl (Std.LawfulEqCmp.compare_eq_iff_eq.mp heq).symm
    · exact .inr (Std.TreeMap.mem_of_mem_erase hm)
  · exact .inr h

theorem Fresh.isUsed (hfresh : Fresh clock msgId s) (h : Inv clock awaiting waiting s) :
    s.isUsed msgId = false := by
  have hcontains : ∀ {β : Type} (t : Std.TreeMap MsgId β), t[msgId]? = none →
      t.contains msgId = false := by
    intro β t ht
    rw [← Bool.not_eq_true, Std.TreeMap.contains_iff_mem]
    exact (notMem_iff_none t msgId).mpr ht
  rw [SessionData.isUsed, hcontains _ hfresh.toResend, hcontains _ hfresh.wereAcked,
    hcontains _ (hfresh.notSent h)]
  rfl

theorem unusedMsgId_of_unused (hunused : s.isUsed newId = false) (fuel : ℕ) :
    s.unusedMsgId clock fuel newId = (newId, s) := by
  cases fuel with
  | zero => rfl
  | succ fuel =>
    rw [unusedMsgId, hunused]
    rfl

/-- A request gets its first id and a number. -/
def numberRequest (ref : RequestRef) (msgId : MsgId) (s : SessionData) : SessionData :=
  let (seqNo, s) := s.nextRequestSeqNumber (s.requests ref).needAck
  s.update ref { s.requests ref with msgId, seqNo }

/-- A request gets another id. -/
def renameRequest (ref : RequestRef) (newId : MsgId) (s : SessionData) : SessionData :=
  let oldId := (s.requests ref).msgId
  let s := (s.renameInMaps oldId newId).renameInContainers
    fun id => if id = oldId then newId else id
  s.update ref { s.requests ref with msgId := newId }

/-- What `placeId` does: the id of the request, the session, and the next id for the container. -/
inductive PlaceStep (clock : ℕ → MsgId) (ref : RequestRef) (s : SessionData) (bigMsgId : MsgId) :
    MsgId → SessionData → MsgId → Prop
  | empty (hbody : (s.requests ref).body = []) : PlaceStep clock ref s bigMsgId 0 s bigMsgId
  | first (hbody : (s.requests ref).body ≠ []) (hid : (s.requests ref).msgId = 0) :
      PlaceStep clock ref s bigMsgId bigMsgId ((s.numberRequest ref bigMsgId).nextMsgId clock).2
        ((s.numberRequest ref bigMsgId).nextMsgId clock).1
  | again (hbody : (s.requests ref).body ≠ []) (hid : (s.requests ref).msgId ≠ 0)
      (hlt : (s.requests ref).msgId < bigMsgId) :
      PlaceStep clock ref s bigMsgId (s.requests ref).msgId
        { s with toResend := s.toResend.erase (s.requests ref).msgId } bigMsgId
  | replaced (hbody : (s.requests ref).body ≠ []) (hlt : bigMsgId < (s.requests ref).msgId) :
      PlaceStep clock ref s bigMsgId bigMsgId
        ((({ s with toResend := s.toResend.erase (s.requests ref).msgId } :
          SessionData).renameRequest ref bigMsgId).nextMsgId clock).2
        ((({ s with toResend := s.toResend.erase (s.requests ref).msgId } :
          SessionData).renameRequest ref bigMsgId).nextMsgId clock).1

theorem Fresh.erase_toResend (hfresh : Fresh clock newId s) (msgId : MsgId) :
    Fresh clock newId { s with toResend := s.toResend.erase msgId } := by
  refine { hfresh with toResend := ?_ }
  dsimp only
  rw [erase_getElem?, hfresh.toResend, ite_self]

theorem Inv.erase_toResend (h : Inv clock awaiting waiting s) (msgId : MsgId) :
    Inv clock awaiting waiting { s with toResend := s.toResend.erase msgId } :=
  h.loses { Loses.refl _ _ _ _ with toResend := fun hk => (getElem?_of_erase hk).2 }

theorem replaceMsgId_fresh (h : Inv clock awaiting waiting s) (hfresh : Fresh clock newId s)
    (hbody : (s.requests ref).body ≠ []) (hlt : newId < (s.requests ref).msgId) :
    s.replaceMsgId clock ref newId = (newId, s.renameRequest ref newId) := by
  have hne : (s.requests ref).msgId ≠ newId := by
    rintro heq
    exact absurd (heq ▸ hlt) (UInt64.lt_irrefl _)
  have hne0 : (s.requests ref).msgId ≠ 0 := by
    intro heq
    rw [heq] at hlt
    exact UInt64.not_lt_zero hlt
  rw [replaceMsgId]
  dsimp only
  rw [if_neg hbody, if_neg hne, if_pos hne0, unusedMsgId_of_unused (hfresh.isUsed h)]
  rfl

theorem placeId_step {p : Packing} (h : Inv clock awaiting waiting p.session)
    (hfresh : Fresh clock p.bigMsgId p.session) (hw : ref ∈ waiting) :
    ∃ msgId t bigMsgId, PlaceStep clock ref p.session p.bigMsgId msgId t bigMsgId ∧
      p.placeId clock ref =
        (msgId, { p with session := t, bigMsgId, ids := p.ids ++ [msgId] }) := by
  obtain ⟨s, buffer, bigMsgId, ids⟩ := p
  dsimp only at h hfresh
  have hirrefl : ¬ bigMsgId < bigMsgId := UInt64.lt_irrefl _
  by_cases hbody : (s.requests ref).body = []
  · refine ⟨_, _, _, .empty hbody, ?_⟩
    have hprepare : s.prepareToSend ref bigMsgId = (0, s) := by
      rw [prepareToSend]
      dsimp only
      rw [if_pos hbody]
    have hzero : ¬ bigMsgId ≤ 0 := by
      intro hle
      exact hfresh.notZero (UInt64.le_antisymm hle (UInt64.zero_le))
    have hlt : ¬ bigMsgId < 0 := UInt64.not_lt_zero
    simp only [Packing.placeId, hprepare, if_neg hlt, if_neg hzero]
  by_cases hid : (s.requests ref).msgId = 0
  · refine ⟨_, _, _, .first hbody hid, ?_⟩
    have hprepare : s.prepareToSend ref bigMsgId = (bigMsgId, s.numberRequest ref bigMsgId) := by
      rw [prepareToSend]
      dsimp only
      rw [if_neg hbody, if_neg (not_not.mpr hid)]
      rfl
    have hle : bigMsgId ≤ bigMsgId := UInt64.le_refl _
    simp only [Packing.placeId, hprepare, if_neg hirrefl, if_pos hle]
  have hprepare : s.prepareToSend ref bigMsgId = ((s.requests ref).msgId,
      { s with toResend := s.toResend.erase (s.requests ref).msgId }) := by
    rw [prepareToSend]
    dsimp only
    rw [if_neg hbody, if_pos hid]
  by_cases hlt : bigMsgId < (s.requests ref).msgId
  · refine ⟨_, _, _, .replaced hbody hlt, ?_⟩
    have hreplace := replaceMsgId_fresh (h.erase_toResend (s.requests ref).msgId)
      (hfresh.erase_toResend (s.requests ref).msgId) hbody hlt
    have hle : bigMsgId ≤ bigMsgId := UInt64.le_refl _
    simp only [Packing.placeId, hprepare, if_pos hlt, hreplace, if_pos hle]
  · have hle : ¬ bigMsgId ≤ (s.requests ref).msgId := by
      intro hle
      rcases UInt64.lt_or_eq_of_le hle with hlt' | heq
      · exact hlt hlt'
      · exact hfresh.unused ref (h.waits ref hw) heq.symm
    refine ⟨_, _, _, .again hbody hid (UInt64.not_le.mp hle), ?_⟩
    simp only [Packing.placeId, hprepare, if_neg hlt, if_neg hle]

/-! ## What is true of a request with an id -/

theorem erased_none {β : Type} (t : Std.TreeMap MsgId β) (msgId : MsgId) :
    (t.erase msgId)[msgId]? = none := by
  rw [erase_getElem?, if_pos rfl]

theorem Inv.notLost_of_unsent (h : Inv clock awaiting waiting s) (hw : ref ∈ waiting) (hid : (s.requests ref).msgId = 0)
    (hne : (s.requests ref).requestId ≠ 0) (lost : MsgId) :
    s.toResend[lost]? ≠ some (s.requests ref).requestId := by
  intro hlost
  obtain ⟨⟨hlost', -⟩, -⟩ := h.toResend lost _ hlost
  exact hlost' ((h.lost lost _ hlost hne ref hw rfl).symm.trans hid)

/-- An id of a request that is to be sent again is in `toResend` no more. -/
theorem Inv.notLost_of_erased (h : Inv clock awaiting waiting s) (hw : ref ∈ waiting)
    (hne : (s.requests ref).requestId ≠ 0) (lost : MsgId) :
    (s.toResend.erase (s.requests ref).msgId)[lost]? ≠ some (s.requests ref).requestId := by
  intro hlost
  obtain ⟨hlost', hlost⟩ := getElem?_of_erase hlost
  exact hlost' (h.lost lost _ hlost hne ref hw rfl)

theorem odd_seqNo (n : UInt32) : (n * 2 + 1) &&& 1 = 1 := by
  rw [← UInt32.toNat_inj, UInt32.toNat_and, UInt32.toNat_add, UInt32.toNat_mul]
  simp only [UInt32.reduceToNat, Nat.and_one_is_mod]
  omega

theorem renameInContainers_of_notSent {f : MsgId → MsgId}
    (h : ∀ m : MsgId, s.haveSent[m]? ≠ some ref) :
    (s.renameInContainers f).requests ref = s.requests ref := by
  have hvalues : s.haveSent.values.contains ref = false := by
    rw [← Bool.not_eq_true, List.contains_iff_mem, mem_values]
    rintro ⟨m, hm⟩
    exact h m hm
  simp only [renameInContainers, hvalues, Bool.false_eq_true, false_and, if_false]

theorem renameInContainers_same (f : MsgId → MsgId) (s : SessionData) (ref : RequestRef) :
    ∃ body, (s.renameInContainers f).requests ref = { s.requests ref with body } := by
  dsimp only [renameInContainers]
  split_ifs
  · exact ⟨_, rfl⟩
  · exact ⟨_, rfl⟩

theorem Inv.renameInContainers (h : Inv clock awaiting waiting s) (f : MsgId → MsgId) :
    Inv clock awaiting waiting (s.renameInContainers f) := by
  refine h.of_requests (fun ref => ?_) (fun k ref hk hc => ?_) (fun k ref hk _ hdate => ?_)
  · obtain ⟨body, hbody⟩ := renameInContainers_same f s ref
    exact ⟨congrArg (·.msgId) hbody, congrArg (·.requestId) hbody⟩
  · have hcall := (h.stored k ref hk).2.2 hc
    -- a call that was sent has an odd number, and so is no container
    have hsame : ¬ (s.haveSent.values.contains ref ∧ (s.requests ref).isSentContainer) := by
      rintro ⟨hsent, hcontainer⟩
      obtain ⟨m, hm⟩ := mem_values.mp (List.contains_iff_mem.mp hsent)
      obtain ⟨-, hid, hne⟩ := h.haveSent m ref hm
      have hodd := hcall.seqNo (hid.symm ▸ hne)
      simp only [SecureRequestData.isSentContainer, hcall.call.body, if_false,
        decide_eq_true_eq] at hcontainer
      simp [hcontainer.2] at hodd
    rw [if_neg hsame]
    exact .refl _
  · obtain ⟨body, hbody⟩ := renameInContainers_same f s ref
    exact (congrArg (·.msDate) hbody).symm ▸ hdate

/-- A request has got its id: it has no other to be found under. -/
inductive HasId (ref : RequestRef) (msgId : MsgId) (s : SessionData) : Prop
  | empty (hbody : (s.requests ref).body = []) (hzero : msgId = 0)
  | given (hid : (s.requests ref).msgId = msgId) (hne : msgId ≠ 0)
      (hresend : s.toResend[msgId]? = none)
      (hlost : (s.requests ref).requestId ≠ 0 →
        ∀ lost : MsgId, s.toResend[lost]? ≠ some (s.requests ref).requestId)

/-- What is the same when a request gets its id: only containers that were sent change too. -/
structure PlaceFrame (ref : RequestRef) (s t : SessionData) : Prop where
  self : ∃ msgId seqNo, t.requests ref = { s.requests ref with msgId, seqNo }
  others : ∀ ref' ≠ ref, (∀ m : MsgId, s.haveSent[m]? ≠ some ref') →
    t.requests ref' = s.requests ref'
  requestId : ∀ ref', (t.requests ref').requestId = (s.requests ref').requestId
  nextRef : t.nextRef = s.nextRef
  toSend : t.toSend = s.toSend
  haveSent : t.haveSent = s.haveSent

theorem numberRequest_frame (ref : RequestRef) (msgId : MsgId) (s : SessionData) :
    PlaceFrame ref s (s.numberRequest ref msgId) where
  self := ⟨_, _, update_requests_self _ _ _⟩
  others _ hne _ := update_requests_of_ne hne _ _
  requestId := update_requestId rfl
  nextRef := rfl
  toSend := rfl
  haveSent := rfl

/-- Only the acked ids are renamed with a request that is waiting. -/
theorem renameInMaps_of_none (newId : MsgId) {old : MsgId} (hresend : s.toResend[old]? = none)
    (hsent : s.haveSent[old]? = none) :
    s.renameInMaps old newId = { s with wereAcked := rename s.wereAcked old newId } := by
  rw [renameInMaps, rename_of_none hresend, rename_of_none hsent]

theorem renameRequest_frame (newId : MsgId)
    (hresend : s.toResend[(s.requests ref).msgId]? = none)
    (hsent : s.haveSent[(s.requests ref).msgId]? = none)
    (hloose : ∀ m : MsgId, s.haveSent[m]? ≠ some ref) :
    PlaceFrame ref s (s.renameRequest ref newId) := by
  have hmaps := renameInMaps_of_none newId hresend hsent
  have hsame : ∀ {f : MsgId → MsgId} {ref' : RequestRef},
      (∀ m : MsgId, s.haveSent[m]? ≠ some ref') →
        ((s.renameInMaps (s.requests ref).msgId newId).renameInContainers f).requests ref' =
          s.requests ref' := by
    intro f ref' hnot
    refine renameInContainers_of_notSent ?_
    rw [hmaps]
    exact hnot
  rw [renameRequest]
  refine ⟨?_, fun ref' hne hnot => ?_, fun ref' => ?_, rfl, rfl, ?_⟩
  · refine ⟨newId, (s.requests ref).seqNo, ?_⟩
    dsimp only
    rw [update_requests_self, hsame hloose]
  · dsimp only
    rw [update_requests_of_ne hne, hsame hnot]
  · refine (update_requestId (by rfl) ref').trans ?_
    obtain ⟨body, hbody⟩ := renameInContainers_same
      (fun id => if id = (s.requests ref).msgId then newId else id)
      (s.renameInMaps (s.requests ref).msgId newId) ref'
    exact congrArg (·.requestId) hbody
  · exact rename_of_none hsent

theorem Inv.numberRequest (h : Inv clock awaiting waiting s) (hunused : Unused clock msgId s) (hw : ref ∈ waiting) (hid : (s.requests ref).msgId = 0) :
    Inv clock awaiting waiting (s.numberRequest ref msgId) := by
  have hnumbered : Inv clock awaiting waiting
      (s.nextRequestSeqNumber (s.requests ref).needAck).2 := h.loses { Loses.refl _ _ _ _ with }
  refine hnumbered.setMsgId (.inr ⟨hunused.given, hunused.unused, hunused.ping⟩)
    (h.apart ref hw) (fun hne _ => h.notLost_of_unsent hw hid hne) rfl
    (fun k hk hc => ?_)
  have hcall := ((h.stored k ref hk).2.2 hc).call
  have hack : (s.requests ref).needAck = true := hcall.needAck
  refine ⟨⟨hcall.body, hcall.type, hcall.length⟩, fun _ => ?_⟩
  simp only [hack, if_true]
  exact odd_seqNo s.messagesSent

theorem Inv.renameRequest (h : Inv clock awaiting waiting s) (hunused : Unused clock newId s)
    (hw : ref ∈ waiting) (hid : (s.requests ref).msgId ≠ 0)
    (hlost : (s.requests ref).requestId ≠ 0 →
      ∀ lost : MsgId, s.toResend[lost]? ≠ some (s.requests ref).requestId)
    (hresend : s.toResend[(s.requests ref).msgId]? = none) :
    Inv clock awaiting waiting (s.renameRequest ref newId) := by
  have hmaps := renameInMaps_of_none newId hresend (h.notSent_of_waits hw)
  have hacked : Inv clock awaiting waiting (s.renameInMaps (s.requests ref).msgId newId) := by
    rw [hmaps]
    refine h.loses { Loses.refl clock _ _ _ with wereAcked := fun m hm => ?_ }
    obtain rfl | hm := mem_rename hm
    · exact .inr (.inr hunused.given)
    · exact .inl hm
  have hrenamed := hacked.renameInContainers
    fun id => if id = (s.requests ref).msgId then newId else id
  have hself : ((s.renameInMaps (s.requests ref).msgId newId).renameInContainers
      fun id => if id = (s.requests ref).msgId then newId else id).requests ref =
        s.requests ref := by
    refine renameInContainers_of_notSent ?_
    rw [hmaps]
    exact h.apart ref hw
  rw [SessionData.renameRequest]
  refine hrenamed.setMsgId (.inr ⟨hunused.given, fun ref' hlt => ?_, hunused.ping⟩)
    ?_ ?_ rfl (fun k hk hc => ?_)
  · obtain ⟨body, hbody⟩ := renameInContainers_same
      (fun id => if id = (s.requests ref).msgId then newId else id)
      (s.renameInMaps (s.requests ref).msgId newId) ref'
    exact (congrArg (·.msgId) hbody).symm ▸ hunused.unused ref' hlt
  · rw [hmaps]
    exact h.apart ref hw
  · rw [hself, hmaps]
    exact fun hne _ => hlost hne
  · have hcall := (h.stored k ref hk).2.2 hc
    rw [hself]
    exact ⟨⟨hcall.call.body, hcall.call.type, hcall.call.length⟩, fun _ => hcall.seqNo hid⟩

theorem Inv.numberRequest_hasId (h : Inv clock awaiting waiting s) (hfresh : Fresh clock msgId s) (hw : ref ∈ waiting) (hid : (s.requests ref).msgId = 0) :
    HasId ref msgId (s.numberRequest ref msgId) := by
  have hreq : ((s.numberRequest ref msgId).requests ref).requestId =
    (s.requests ref).requestId := (numberRequest_frame ref msgId s).requestId ref
  refine .given (congrArg (·.msgId) (update_requests_self _ ref _)) hfresh.notZero hfresh.toResend
    fun hne => ?_
  exact hreq ▸ h.notLost_of_unsent hw hid (hreq ▸ hne)

/-- A request that is placed has its id, and the next one is fresh. -/
theorem PlaceStep.placed (hstep : PlaceStep clock ref s bigMsgId msgId t newId)
    (hclock : NewIds clock t.msgIdCalls) (h : Inv clock awaiting waiting s)
    (hfresh : Fresh clock bigMsgId s) (hw : ref ∈ waiting) :
    Inv clock awaiting waiting t ∧ Fresh clock newId t ∧ HasId ref msgId t ∧
      PlaceFrame ref s t := by
  have hloose := h.apart ref hw
  cases hstep with
  | empty hbody =>
    exact ⟨h, hfresh, .empty hbody rfl, ⟨⟨_, _, rfl⟩, fun _ _ _ => rfl, fun _ => rfl, rfl, rfl, rfl⟩⟩
  | first hbody hid =>
    have hnumbered := h.numberRequest hfresh.toUnused hw hid
    obtain ⟨hinv, hfresh'⟩ := hnumbered.nextMsgId hclock
    have hframe := numberRequest_frame ref msgId s
    have hasId := h.numberRequest_hasId hfresh hw hid
    refine ⟨hinv, hfresh', ?_, ⟨hframe.self, hframe.others, hframe.requestId, rfl, rfl, rfl⟩⟩
    cases hasId with
    | empty _ hz => exact absurd hz hfresh.notZero
    | given hid hne hresend hlost => exact .given hid hne hresend hlost
  | again hbody hid hlt =>
    exact ⟨h.erase_toResend _, hfresh.erase_toResend _,
      .given rfl hid (erased_none _ _) fun hne => h.notLost_of_erased hw hne,
      ⟨⟨_, _, rfl⟩, fun _ _ _ => rfl, fun _ => rfl, rfl, rfl, rfl⟩⟩
  | replaced hbody hlt =>
    have herased := h.erase_toResend (s.requests ref).msgId
    have hid : (s.requests ref).msgId ≠ 0 := by
      intro heq
      rw [heq] at hlt
      exact UInt64.not_lt_zero hlt
    have hresend := erased_none s.toResend (s.requests ref).msgId
    have hrenamed := herased.renameRequest (hfresh.erase_toResend _).toUnused hw hid
      (fun hne => h.notLost_of_erased hw hne) hresend
    obtain ⟨hinv, hfresh'⟩ := hrenamed.nextMsgId hclock
    have hframe := renameRequest_frame msgId hresend (herased.notSent_of_waits hw)
      hloose
    have hsame : (({ s with toResend := s.toResend.erase (s.requests ref).msgId } :
        SessionData).renameRequest ref msgId).toResend =
          s.toResend.erase (s.requests ref).msgId := rename_of_none hresend
    refine ⟨hinv, hfresh', .given ?_ hfresh.notZero ?_ fun hne => ?_,
      ⟨hframe.self, hframe.others, hframe.requestId, rfl, rfl, hframe.haveSent⟩⟩
    · exact congrArg (·.msgId) (update_requests_self _ ref _)
    · exact (congrArg (·[msgId]?) hsame).trans (hfresh.erase_toResend _).toResend
    · intro lost
      have hreq := hframe.requestId ref
      have hnot := h.notLost_of_erased hw (hreq ▸ hne) lost
      rwa [← hsame, ← hreq] at hnot

/-- The same for a request that is sent without a container: it keeps an id it has. -/
theorem Inv.prepareToSend (h : Inv clock awaiting waiting s) (hfresh : Fresh clock newId s) (hw : ref ∈ waiting) :
    Inv clock awaiting waiting (s.prepareToSend ref newId).2 ∧
      HasId ref (s.prepareToSend ref newId).1 (s.prepareToSend ref newId).2 ∧
        PlaceFrame ref s (s.prepareToSend ref newId).2 := by
  rw [SessionData.prepareToSend]
  dsimp only
  split_ifs with hbody hid
  · exact ⟨h, .empty hbody rfl, ⟨⟨_, _, rfl⟩, fun _ _ _ => rfl, fun _ => rfl, rfl, rfl, rfl⟩⟩
  · exact ⟨h.erase_toResend _, .given rfl hid (erased_none _ _) fun hne =>
      h.notLost_of_erased hw hne, ⟨⟨_, _, rfl⟩, fun _ _ _ => rfl, fun _ => rfl, rfl, rfl, rfl⟩⟩
  · have hid := not_not.mp hid
    exact ⟨h.numberRequest hfresh.toUnused hw hid,
      h.numberRequest_hasId hfresh hw hid, numberRequest_frame ref newId s⟩

end SessionData

end Bettergram.Mtproto
