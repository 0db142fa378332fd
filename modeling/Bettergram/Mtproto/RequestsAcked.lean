import Bettergram.Foundation.TreeMaps
import Bettergram.Mtproto.SessionData

/-! # What an acknowledgement takes away

`requestsAcked` follows the ids in a container. It takes every request with a
zero date for one, and so reads the ids out of the body of a state request too.
-/

namespace Bettergram.Mtproto
open Foundation

namespace SessionData

/-- An ack of the id takes something out of `haveSent` or `toResend`. -/
def Moves (byResponse : Bool) (msgId : MsgId) (s : SessionData) : Prop :=
  (∃ ref, s.haveSent[msgId]? = some ref ∧
    ((s.requests ref).msDate = 0 ∨ s.moveToAcked byResponse (s.requests ref).requestId)) ∨
  (s.haveSent[msgId]? = none ∧
    ∃ reqId, s.toResend[msgId]? = some reqId ∧ s.moveToAcked byResponse reqId)

variable {s t : SessionData} {byResponse : Bool} {msgId : MsgId} {ids toAckMore : List MsgId}

/-- What one id of the loop does. -/
inductive AckStep (byResponse : Bool) (s : SessionData) (toAckMore : List MsgId) (msgId : MsgId) :
    SessionData × List MsgId → Prop
  | container (ref : RequestRef) (hsent : s.haveSent[msgId]? = some ref)
      (hdate : (s.requests ref).msDate = 0) :
      AckStep byResponse s toAckMore msgId
        ({ s with haveSent := s.haveSent.erase msgId }, toAckMore ++ (s.requests ref).sentIds)
  | sent (ref : RequestRef) (hsent : s.haveSent[msgId]? = some ref)
      (hdate : (s.requests ref).msDate ≠ 0)
      (hmove : s.moveToAcked byResponse (s.requests ref).requestId) :
      AckStep byResponse s toAckMore msgId
        ({ s with
            wereAcked := s.wereAcked.insert msgId (s.requests ref).requestId
            haveSent := s.haveSent.erase msgId }, toAckMore)
  | resent (reqId : RequestId) (ref : RequestRef) (hsent : s.haveSent[msgId]? = none)
      (hresend : s.toResend[msgId]? = some reqId) (hmove : s.moveToAcked byResponse reqId)
      (hwaits : s.toSend[reqId]? = some ref) :
      AckStep byResponse s toAckMore msgId
        ({ s with
            wereAcked := s.wereAcked.insert msgId (s.requests ref).requestId
            toSend := s.toSend.erase reqId
            toResend := s.toResend.erase msgId }, toAckMore)
  | forgotten (reqId : RequestId) (hsent : s.haveSent[msgId]? = none)
      (hresend : s.toResend[msgId]? = some reqId) (hmove : s.moveToAcked byResponse reqId)
      (hwaits : s.toSend[reqId]? = none) :
      AckStep byResponse s toAckMore msgId
        ({ s with toResend := s.toResend.erase msgId }, toAckMore)
  | kept (hkept : ¬ s.Moves byResponse msgId) : AckStep byResponse s toAckMore msgId (s, toAckMore)

theorem ackOne_step (byResponse : Bool) (s : SessionData) (toAckMore : List MsgId)
    (msgId : MsgId) :
    AckStep byResponse s toAckMore msgId (ackOne byResponse (s, toAckMore) msgId) := by
  unfold ackOne
  dsimp only
  cases hsent : s.haveSent[msgId]? with
  | some ref =>
    dsimp only
    split_ifs with hdate hmove
    · exact .container ref hsent hdate
    · exact .sent ref hsent hdate hmove
    · apply AckStep.kept
      rintro (⟨ref', hsent', hcond⟩ | ⟨hnone, -⟩)
      · obtain rfl := Option.some.inj (hsent.symm.trans hsent')
        exact hcond.elim hdate hmove
      · simp [hsent] at hnone
  | none =>
    cases hresend : s.toResend[msgId]? with
    | some reqId =>
      dsimp only
      split_ifs with hmove
      · cases hwaits : s.toSend[reqId]? with
        | some ref => exact .resent reqId ref hsent hresend hmove hwaits
        | none => exact .forgotten reqId hsent hresend hmove hwaits
      · apply AckStep.kept
        rintro (⟨ref, hsent', -⟩ | ⟨-, reqId', hresend', hmove'⟩)
        · simp [hsent] at hsent'
        · obtain rfl := Option.some.inj (hresend.symm.trans hresend')
          exact hmove hmove'
    | none =>
      apply AckStep.kept
      rintro (⟨ref, hsent', -⟩ | ⟨-, reqId, hresend', -⟩)
      · simp [hsent] at hsent'
      · simp [hresend] at hresend'

/-! ## The maps get smaller -/

/-- Nothing is added to the maps, and the requests stay as they are. -/
structure Shrinks (s t : SessionData) : Prop where
  requests : t.requests = s.requests
  parserMap : t.parserMap = s.parserMap
  haveSent : ∀ {msgId : MsgId} {ref : RequestRef}, t.haveSent[msgId]? = some ref →
    s.haveSent[msgId]? = some ref
  toResend : ∀ {msgId : MsgId} {reqId : RequestId}, t.toResend[msgId]? = some reqId →
    s.toResend[msgId]? = some reqId
  toSend : ∀ {reqId : RequestId} {ref : RequestRef}, t.toSend[reqId]? = some ref →
    s.toSend[reqId]? = some ref

theorem Shrinks.refl (s : SessionData) : Shrinks s s := ⟨rfl, rfl, id, id, id⟩

theorem Shrinks.trans {u : SessionData} (h : Shrinks s t) (h' : Shrinks t u) : Shrinks s u where
  requests := h'.requests.trans h.requests
  parserMap := h'.parserMap.trans h.parserMap
  haveSent hm := h.haveSent (h'.haveSent hm)
  toResend hm := h.toResend (h'.toResend hm)
  toSend hm := h.toSend (h'.toSend hm)

theorem getElem?_of_erase {α β : Type} [Ord α] [Std.TransOrd α] [Std.LawfulEqOrd α] [DecidableEq α]
    {m : Std.TreeMap α β} {k a : α} {v : β} (h : (m.erase k)[a]? = some v) :
    k ≠ a ∧ m[a]? = some v := by
  rw [erase_getElem?] at h
  split_ifs at h with heq
  exact ⟨heq, h⟩

theorem AckStep.shrinks {x : SessionData × List MsgId}
    (h : AckStep byResponse s toAckMore msgId x) : Shrinks s x.1 := by
  cases h with
  | container => exact ⟨rfl, rfl, fun h => (getElem?_of_erase h).2, id, id⟩
  | sent => exact ⟨rfl, rfl, fun h => (getElem?_of_erase h).2, id, id⟩
  | resent =>
    exact ⟨rfl, rfl, id, fun h => (getElem?_of_erase h).2, fun h => (getElem?_of_erase h).2⟩
  | forgotten => exact ⟨rfl, rfl, id, fun h => (getElem?_of_erase h).2, id⟩
  | kept => exact .refl s

/-- `clearTooOld` looks after the acked ids only. -/
theorem clearTooOld_frame (n : ℕ) (s : SessionData) :
    ∃ wereAcked clearDelayed,
      s.clearTooOld n = { s with wereAcked := wereAcked, clearDelayed := clearDelayed } ∧
        ∀ msgId ∈ wereAcked, msgId ∈ s.wereAcked := by
  induction n generalizing s with
  | zero => exact ⟨_, _, rfl, fun _ => id⟩
  | succ n ih =>
    rw [clearTooOld]
    split
    · exact ⟨_, _, rfl, fun _ => id⟩
    · next first _ =>
      obtain ⟨wereAcked, clearDelayed, h, hsub⟩ := ih { s with
        wereAcked := s.wereAcked.erase first
        clearDelayed := s.clearDelayed ++ [((s.wereAcked[first]?).getD 0, timeoutError)] }
      exact ⟨wereAcked, clearDelayed, h, fun m hm => Std.TreeMap.mem_of_mem_erase (hsub m hm)⟩

/-! ## Rounds -/

/-- A container is lost with every call that is made for the ids in containers. -/
theorem ackRound_size (byResponse : Bool) (ids : List MsgId) (s : SessionData) :
    (s.ackRound byResponse ids).2 = [] ∨
      (s.ackRound byResponse ids).1.haveSent.size < s.haveSent.size := by
  have hfold : ∀ (ids : List MsgId) (x : SessionData × List MsgId),
      (x.2 = [] ∧ x.1.haveSent.size ≤ s.haveSent.size ∨ x.1.haveSent.size < s.haveSent.size) →
      let y := ids.foldl (ackOne byResponse) x
      y.2 = [] ∧ y.1.haveSent.size ≤ s.haveSent.size ∨ y.1.haveSent.size < s.haveSent.size := by
    intro ids
    induction ids with
    | nil => exact fun x hx => hx
    | cons msgId ids ih =>
      rintro ⟨t, toAckMore⟩ hx
      apply ih
      dsimp only at hx
      have hlost : ∀ ref, t.haveSent[msgId]? = some ref →
          (t.haveSent.erase msgId).size + 1 = t.haveSent.size :=
        fun ref h => size_erase_of_mem ((mem_iff_exists _ _).mpr ⟨ref, h⟩)
      generalize hy : ackOne byResponse (t, toAckMore) msgId = y
      have hstep := ackOne_step byResponse t toAckMore msgId
      rw [hy] at hstep
      cases hstep with
      | container ref hsent _ | sent ref hsent _ _ =>
        have hsize := hlost ref hsent
        right
        dsimp only
        omega
      | resent => exact hx
      | forgotten => exact hx
      | kept => exact hx
  obtain ⟨wereAcked, clearDelayed, hclear, -⟩ := clearTooOld_frame
    ((ids.foldl (ackOne byResponse) (s, [])).1.wereAcked.size - kIdsBufferSize)
    (ids.foldl (ackOne byResponse) (s, [])).1
  rw [ackRound]
  dsimp only
  rw [hclear]
  exact (hfold ids (s, []) (.inl ⟨rfl, le_rfl⟩)).imp (·.1) id

/-- What each id keeps holds at the end, when no id is left. `P` is about the ids to come, those
for the next call, and the maps; the loss of acked ids must not matter to it. -/
theorem requestsAcked_induction {P : Bool → List MsgId → List MsgId → SessionData → Prop}
    (hone : ∀ byResponse ids toAckMore msgId s x, P byResponse (msgId :: ids) toAckMore s →
      AckStep byResponse s toAckMore msgId x → P byResponse ids x.2 x.1)
    (hcall : ∀ byResponse toAckMore s wereAcked clearDelayed, P byResponse [] toAckMore s →
      (∀ msgId ∈ wereAcked, msgId ∈ s.wereAcked) →
      P false toAckMore [] { s with wereAcked := wereAcked, clearDelayed := clearDelayed })
    (hP : P byResponse ids [] s) : P false [] [] (s.requestsAcked ids byResponse) := by
  have hfold : ∀ (byResponse : Bool) (ids : List MsgId) (x : SessionData × List MsgId),
      P byResponse ids x.2 x.1 →
      P byResponse [] (ids.foldl (ackOne byResponse) x).2
        (ids.foldl (ackOne byResponse) x).1 := by
    intro byResponse ids
    induction ids with
    | nil => exact fun x hx => hx
    | cons msgId ids ih =>
      intro x hx
      exact ih _ (hone byResponse ids x.2 msgId x.1 _ hx (ackOne_step byResponse x.1 x.2 msgId))
  have hround : ∀ (byResponse : Bool) (ids : List MsgId) (s : SessionData),
      P byResponse ids [] s →
      P false (s.ackRound byResponse ids).2 [] (s.ackRound byResponse ids).1 := by
    intro byResponse ids s hP
    obtain ⟨wereAcked, clearDelayed, hframe, hsub⟩ := clearTooOld_frame
      ((ids.foldl (ackOne byResponse) (s, [])).1.wereAcked.size - kIdsBufferSize)
      (ids.foldl (ackOne byResponse) (s, [])).1
    rw [ackRound]
    dsimp only
    rw [hframe]
    exact hcall byResponse _ _ _ _ (hfold byResponse ids (s, []) hP) hsub
  -- the number of sent messages bounds the number of calls
  have hrounds : ∀ (fuel : ℕ) (byResponse : Bool) (ids : List MsgId) (s : SessionData),
      s.haveSent.size < fuel → P byResponse ids [] s →
      P false [] [] (s.ackRounds fuel ids byResponse) := by
    intro fuel
    induction fuel with
    | zero => intro _ _ _ hfuel; omega
    | succ fuel ih =>
      intro byResponse ids s hfuel hP
      have hnext := hround byResponse ids s hP
      have hsize := ackRound_size byResponse ids s
      rw [ackRounds]
      dsimp only
      split_ifs with hmore
      · rwa [hmore] at hnext
      · have hlt := hsize.resolve_left hmore
        exact ih _ _ _ (by omega) hnext
  exact hrounds _ _ _ _ (Nat.lt_succ_self _) hP

/-! ## Only what was acknowledged -/

/-- What an ack is about: the ids it lists, and those in the containers among them. -/
inductive Acked (s : SessionData) (ids : List MsgId) : MsgId → Prop
  | listed {msgId : MsgId} (h : msgId ∈ ids) : Acked s ids msgId
  | inside {container msgId : MsgId} {ref : RequestRef} (h : Acked s ids container)
      (hsent : s.haveSent[container]? = some ref) (hkind : (s.requests ref).isSentContainer)
      (hmem : msgId ∈ (s.requests ref).sentIds) : Acked s ids msgId

/-- The ids that are looked up: a zero date is enough for a body to be read as ids. -/
inductive Reads (s : SessionData) (ids : List MsgId) : MsgId → Prop
  | listed {msgId : MsgId} (h : msgId ∈ ids) : Reads s ids msgId
  | inside {zeroDate msgId : MsgId} {ref : RequestRef} (h : Reads s ids zeroDate)
      (hsent : s.haveSent[zeroDate]? = some ref) (hdate : (s.requests ref).msDate = 0)
      (hmem : msgId ∈ (s.requests ref).sentIds) : Reads s ids msgId

/-- Whatever is gone was acknowledged. -/
structure OnlyAcked (s : SessionData) (ids : List MsgId) (t : SessionData) : Prop where
  haveSent : ∀ msgId ∈ s.haveSent, msgId ∉ t.haveSent → Acked s ids msgId
  toResend : ∀ msgId ∈ s.toResend, msgId ∉ t.toResend → Acked s ids msgId
  toSend : ∀ reqId ∈ s.toSend, reqId ∉ t.toSend →
    ∃ msgId, s.toResend[msgId]? = some reqId ∧ Acked s ids msgId

theorem notMem_of_erase {α β : Type} [Ord α] [Std.TransOrd α] [Std.LawfulEqOrd α]
    [DecidableEq α] {m : Std.TreeMap α β} {k a : α} (h : a ∉ m.erase k) : a = k ∨ a ∉ m := by
  rw [notMem_iff_none, erase_getElem?] at h
  split_ifs at h with heq
  · exact .inl heq.symm
  · exact .inr ((notMem_iff_none _ _).mpr h)

/-- Nothing but what was acknowledged is gone yet, and only ids that are looked up are to come. -/
structure AckSafe (s : SessionData) (ids : List MsgId) (byResponse : Bool)
    (next toAckMore : List MsgId) (t : SessionData) : Prop where
  shrinks : Shrinks s t
  only : OnlyAcked s ids t
  next : ∀ msgId ∈ next, Reads s ids msgId ∧ (byResponse → msgId ∈ ids)
  more : ∀ msgId ∈ toAckMore, Reads s ids msgId

theorem AckSafe.step {next : List MsgId} {x : SessionData × List MsgId}
    (hread : ∀ msgId, Reads s ids msgId → ¬ Acked s ids msgId → ¬ s.Moves false msgId)
    (h : AckSafe s ids byResponse (msgId :: next) toAckMore t)
    (hstep : AckStep byResponse t toAckMore msgId x) : AckSafe s ids byResponse next x.2 x.1 := by
  obtain ⟨hshrinks, honly, hnext, hmore⟩ := h
  obtain ⟨hreads, hlisted⟩ := hnext msgId (by simp)
  have hshrinks' := hshrinks.trans hstep.shrinks
  have hrest : ∀ m ∈ next, Reads s ids m ∧ (byResponse → m ∈ ids) :=
    fun m hm => hnext m (by simp [hm])
  have hmoves : ∀ requestId, t.moveToAcked byResponse requestId →
      msgId ∈ ids ∨ s.moveToAcked false requestId := by
    intro requestId hmove
    rw [moveToAcked, hasCallbacks, hshrinks.parserMap, Bool.or_eq_true] at hmove
    exact hmove.imp hlisted id
  have hacked : s.Moves false msgId → Acked s ids msgId := by
    intro hm
    by_contra hnot
    exact hread msgId hreads hnot hm
  have hsent : ∀ ref, t.haveSent[msgId]? = some ref →
      (s.requests ref).msDate = 0 ∨ t.moveToAcked byResponse (s.requests ref).requestId →
      Acked s ids msgId := by
    rintro ref href (hdate | hmove)
    · exact hacked (.inl ⟨ref, hshrinks.haveSent href, .inl hdate⟩)
    · exact (hmoves _ hmove).elim .listed
        fun hmove => hacked (.inl ⟨ref, hshrinks.haveSent href, .inr hmove⟩)
  have hresent : ∀ reqId, t.haveSent[msgId]? = none → t.toResend[msgId]? = some reqId →
      t.moveToAcked byResponse reqId → Acked s ids msgId := by
    intro reqId hnone hresend hmove
    by_cases hgone : msgId ∈ s.haveSent
    · exact honly.haveSent msgId hgone ((notMem_iff_none _ _).mpr hnone)
    · exact (hmoves _ hmove).elim .listed fun hmove => hacked (.inr
        ⟨(notMem_iff_none _ _).mp hgone, reqId, hshrinks.toResend hresend, hmove⟩)
  cases hstep with
  | container ref href hdate =>
    rw [hshrinks.requests] at hdate
    refine ⟨hshrinks', ⟨fun m hm hgone => ?_, honly.toResend, honly.toSend⟩, hrest,
      fun m hm => ?_⟩
    · obtain rfl | hgone := notMem_of_erase hgone
      · exact hsent ref href (.inl hdate)
      · exact honly.haveSent m hm hgone
    · rcases List.mem_append.mp hm with hm | hm
      · exact hmore m hm
      · rw [hshrinks.requests] at hm
        exact .inside hreads (hshrinks.haveSent href) hdate hm
  | sent ref href hdate hmove =>
    rw [hshrinks.requests] at hmove
    refine ⟨hshrinks', ⟨fun m hm hgone => ?_, honly.toResend, honly.toSend⟩, hrest, hmore⟩
    obtain rfl | hgone := notMem_of_erase hgone
    · exact hsent ref href (.inr hmove)
    · exact honly.haveSent m hm hgone
  | resent reqId ref hnone hresend hmove =>
    have hmsgId := hresent reqId hnone hresend hmove
    refine ⟨hshrinks', ⟨honly.haveSent, fun m hm hgone => ?_, fun k hk hgone => ?_⟩, hrest, hmore⟩
    · obtain rfl | hgone := notMem_of_erase hgone
      · exact hmsgId
      · exact honly.toResend m hm hgone
    · obtain rfl | hgone := notMem_of_erase hgone
      · exact ⟨msgId, hshrinks.toResend hresend, hmsgId⟩
      · exact honly.toSend k hk hgone
  | forgotten reqId hnone hresend hmove =>
    refine ⟨hshrinks', ⟨honly.haveSent, fun m hm hgone => ?_, honly.toSend⟩, hrest, hmore⟩
    obtain rfl | hgone := notMem_of_erase hgone
    · exact hresent reqId hnone hresend hmove
    · exact honly.toResend m hm hgone
  | kept => exact ⟨hshrinks', honly, hrest, hmore⟩

theorem onlyAcked_of_reads
    (hread : ∀ msgId, Reads s ids msgId → ¬ Acked s ids msgId → ¬ s.Moves false msgId) :
    OnlyAcked s ids (s.requestsAcked ids byResponse) := by
  have hsafe : AckSafe s ids false [] [] (s.requestsAcked ids byResponse) := by
    refine requestsAcked_induction (P := AckSafe s ids)
      (fun _ _ _ _ _ _ hP hstep => hP.step hread hstep) (fun _ _ _ _ _ hP _ => ?_)
      ⟨.refl s, ⟨fun _ h hn => absurd h hn, fun _ h hn => absurd h hn, fun _ h hn => absurd h hn⟩,
        fun m hm => ⟨.listed hm, fun _ => hm⟩, by simp⟩
    exact ⟨⟨hP.shrinks.requests, hP.shrinks.parserMap, hP.shrinks.haveSent, hP.shrinks.toResend,
      hP.shrinks.toSend⟩, ⟨hP.only.haveSent, hP.only.toResend, hP.only.toSend⟩,
      fun m hm => ⟨hP.more m hm, by simp⟩, by simp⟩
  exact hsafe.only

/-! ## Everything that is looked up is taken -/

/-- What an ack of the id would take is gone. -/
def Taken (s t : SessionData) (msgId : MsgId) : Prop :=
  s.Moves false msgId →
    (msgId ∈ s.haveSent → msgId ∉ t.haveSent) ∧ (msgId ∉ s.haveSent → msgId ∉ t.toResend)

theorem Taken.shrinks {u : SessionData} (h : Taken s t msgId) (hshrinks : Shrinks t u) :
    Taken s u msgId := by
  intro hmoves
  obtain ⟨hsent, hresend⟩ := h hmoves
  refine ⟨fun hm hu => hsent hm ?_, fun hm hu => hresend hm ?_⟩
  · obtain ⟨ref, href⟩ := (mem_iff_exists _ _).mp hu
    exact (mem_iff_exists _ _).mpr ⟨ref, hshrinks.haveSent href⟩
  · obtain ⟨reqId, hreqId⟩ := (mem_iff_exists _ _).mp hu
    exact (mem_iff_exists _ _).mpr ⟨reqId, hshrinks.toResend hreqId⟩

/-- The ids that were acked, and those that were read, are taken or still to come. -/
structure AckComplete (s : SessionData) (ids : List MsgId) (next toAckMore : List MsgId)
    (t : SessionData) : Prop where
  shrinks : Shrinks s t
  listed : ∀ msgId ∈ ids, Taken s t msgId ∨ msgId ∈ next ++ toAckMore
  inside : ∀ zeroDate ref, s.haveSent[zeroDate]? = some ref → (s.requests ref).msDate = 0 →
    zeroDate ∉ t.haveSent → ∀ msgId ∈ (s.requests ref).sentIds,
      Taken s t msgId ∨ msgId ∈ next ++ toAckMore

theorem AckStep.taken (h : Shrinks s t) {x : SessionData × List MsgId}
    (hstep : AckStep byResponse t toAckMore msgId x) : Taken s x.1 msgId := by
  intro hmoves
  have hmove : ∀ requestId, s.moveToAcked false requestId → t.moveToAcked byResponse requestId := by
    intro requestId hmove
    rw [moveToAcked, hasCallbacks, h.parserMap, Bool.or_eq_true]
    exact .inr hmove
  have hmoves' : msgId ∈ t.haveSent ∨ msgId ∉ s.haveSent ∧ msgId ∈ t.toResend →
      t.Moves byResponse msgId := by
    rintro (hsent | ⟨hsent, hresend⟩)
    · obtain ⟨ref, href⟩ := (mem_iff_exists _ _).mp hsent
      rcases hmoves with ⟨ref', href', hcond⟩ | ⟨hnone, -⟩
      · obtain rfl := Option.some.inj ((h.haveSent href).symm.trans href')
        exact .inl ⟨ref, href, by rw [h.requests]; exact hcond.imp id (hmove _)⟩
      · simp [h.haveSent href] at hnone
    · rcases hmoves with ⟨ref, href, -⟩ | ⟨-, reqId, hreqId, hcond⟩
      · exact absurd ((mem_iff_exists _ _).mpr ⟨ref, href⟩) hsent
      · obtain ⟨reqId', hreqId'⟩ := (mem_iff_exists _ _).mp hresend
        obtain rfl := Option.some.inj ((h.toResend hreqId').symm.trans hreqId)
        refine .inr ⟨?_, reqId', hreqId', hmove _ hcond⟩
        rw [← notMem_iff_none]
        intro hin
        obtain ⟨ref, href⟩ := (mem_iff_exists _ _).mp hin
        exact hsent ((mem_iff_exists _ _).mpr ⟨ref, h.haveSent href⟩)
  have hgone : ∀ {β : Type} (m : Std.TreeMap MsgId β), msgId ∉ m.erase msgId := by
    intro β m
    rw [notMem_iff_none, erase_getElem?, if_pos rfl]
  cases hstep with
  | container ref href _ | sent ref href _ _ =>
    exact ⟨fun _ => hgone _, fun hm => absurd ((mem_iff_exists _ _).mpr
      ⟨ref, h.haveSent href⟩) hm⟩
  | resent reqId ref hnone _ _ _ | forgotten reqId hnone _ _ _ =>
    exact ⟨fun _ => (notMem_iff_none _ _).mpr hnone, fun _ => hgone _⟩
  | kept hkept =>
    exact ⟨fun _ hin => hkept (hmoves' (.inl hin)), fun hm hin => hkept (hmoves' (.inr ⟨hm, hin⟩))⟩

theorem AckComplete.step {next : List MsgId} {x : SessionData × List MsgId}
    (h : AckComplete s ids (msgId :: next) toAckMore t)
    (hstep : AckStep byResponse t toAckMore msgId x) : AckComplete s ids next x.2 x.1 := by
  obtain ⟨hshrinks, hlisted, hinside⟩ := h
  have hmsgId := hstep.taken hshrinks
  have hshrinks' := hstep.shrinks
  have hmore : ∀ m ∈ toAckMore, m ∈ x.2 := by
    cases hstep <;> simp_all
  have hkeep : ∀ m, (Taken s t m ∨ m ∈ msgId :: next ++ toAckMore) →
      Taken s x.1 m ∨ m ∈ next ++ x.2 := by
    rintro m (hm | hm)
    · exact .inl (hm.shrinks hshrinks')
    · rcases List.mem_append.mp hm with hm | hm
      · rcases List.mem_cons.mp hm with rfl | hm
        · exact .inl hmsgId
        · exact .inr (List.mem_append_left _ hm)
      · exact .inr (List.mem_append_right _ (hmore m hm))
  refine ⟨hshrinks.trans hshrinks', fun m hm => hkeep m (hlisted m hm),
    fun zeroDate ref href hdate hgone m hm => ?_⟩
  by_cases hbefore : zeroDate ∈ t.haveSent
  · -- it went just now, and left its ids
    have hnow : zeroDate = msgId ∧ t.haveSent[msgId]? = some ref := by
      obtain ⟨ref', href'⟩ := (mem_iff_exists _ _).mp hbefore
      obtain rfl := Option.some.inj ((hshrinks.haveSent href').symm.trans href)
      cases hstep with
      | container _ _ _ | sent _ _ _ _ =>
        obtain rfl | hgone := notMem_of_erase hgone
        · exact ⟨rfl, href'⟩
        · exact absurd hbefore hgone
      | resent | forgotten | kept => exact absurd hbefore hgone
    obtain ⟨rfl, href'⟩ := hnow
    cases hstep with
    | container ref'' href'' _ =>
      obtain rfl := Option.some.inj (href''.symm.trans href')
      rw [hshrinks.requests]
      exact .inr (List.mem_append_right _ (List.mem_append_right _ hm))
    | sent ref'' href'' hdate'' _ =>
      obtain rfl := Option.some.inj (href''.symm.trans href')
      rw [hshrinks.requests] at hdate''
      exact absurd hdate hdate''
    | resent | forgotten | kept => exact absurd hbefore hgone
  · exact hkeep m (hinside zeroDate ref href hdate hbefore m hm)

theorem taken_of_reads (byResponse : Bool) (h : Reads s ids msgId) :
    Taken s (s.requestsAcked ids byResponse) msgId := by
  have hcomplete : AckComplete s ids [] [] (s.requestsAcked ids byResponse) := by
    refine requestsAcked_induction (P := fun _ => AckComplete s ids)
      (fun _ _ _ _ _ _ hP hstep => hP.step hstep)
      (fun _ toAckMore t wereAcked clearDelayed hP _ => ?_)
      ⟨.refl s, fun m hm => .inr (by simpa using hm), fun zeroDate ref href _ hgone => ?_⟩
    · have hsame : Shrinks t { t with wereAcked := wereAcked, clearDelayed := clearDelayed } :=
        ⟨rfl, rfl, id, id, id⟩
      exact ⟨hP.shrinks.trans hsame,
        fun m hm => (hP.listed m hm).imp (·.shrinks hsame) (by simp),
        fun zeroDate ref href hdate hgone m hm =>
          (hP.inside zeroDate ref href hdate hgone m hm).imp (·.shrinks hsame) (by simp)⟩
    · exact absurd ((mem_iff_exists _ _).mpr ⟨ref, href⟩) hgone
  induction h with
  | listed hm => exact (hcomplete.listed _ hm).resolve_right (by simp)
  | @inside zeroDate m ref _ href hdate hm ih =>
    have hgone := (ih (.inl ⟨ref, href, .inl hdate⟩)).1 ((mem_iff_exists _ _).mpr ⟨ref, href⟩)
    exact (hcomplete.inside zeroDate ref href hdate hgone m hm).resolve_right (by simp)

/-- Only what was acknowledged is taken out, exactly when no id that is looked up without being
acknowledged names something that an ack takes. -/
theorem requestsAcked_onlyAcked (s : SessionData) (ids : List MsgId) (byResponse : Bool) :
    OnlyAcked s ids (s.requestsAcked ids byResponse) ↔
      ∀ msgId, Reads s ids msgId → ¬ Acked s ids msgId → ¬ s.Moves false msgId := by
  refine ⟨fun honly msgId hreads hacked hmoves => hacked ?_, onlyAcked_of_reads⟩
  obtain ⟨hsent, hresend⟩ := taken_of_reads byResponse hreads hmoves
  rcases id hmoves with ⟨ref, href, -⟩ | ⟨hnone, reqId, hreqId, -⟩
  · have hin := (mem_iff_exists _ _).mpr ⟨ref, href⟩
    exact honly.haveSent msgId hin (hsent hin)
  · exact honly.toResend msgId ((mem_iff_exists _ _).mpr ⟨reqId, hreqId⟩)
      (hresend ((notMem_iff_none _ _).mpr hnone))

/-- A request for the state of two messages was sent after the second of them, which needs no
response. -/
def stateRequestSent : SessionData where
  requests ref :=
    if ref = 0 then
      { msgId := 0x5C0000005C000000, seqNo := 1, messageLength := 4, body := [5], msDate := 5
        requestId := 7 }
    else
      { msgId := 0x5C0000007C000000, seqNo := 3, messageLength := 28, requestId := 8
        body := writeLong 0x5C0000005C000000 (writeLong 0x5C00000030000000
          [mtpc_msgs_state_req.toInt32, mtpc_vector.toInt32, 2]) }
  haveSent := (Std.TreeMap.empty.insert 0x5C0000005C000000 0).insert 0x5C0000007C000000 1

/-- The ack of the state request takes the other one with it, whose id is where the parts of the two
ids meet. -/
theorem stateRequestSent_takes :
    ¬ OnlyAcked stateRequestSent [0x5C0000007C000000]
      (stateRequestSent.requestsAcked [0x5C0000007C000000] false) := by
  intro h
  have hacked := h.haveSent 0x5C0000005C000000 (by decide) (by decide)
  have honly : ∀ msgId, Acked stateRequestSent [0x5C0000007C000000] msgId →
      msgId = 0x5C0000007C000000 := by
    intro msgId hmsgId
    induction hmsgId with
    | listed hm => exact List.mem_singleton.mp hm
    | inside _ hsent hkind _ ih =>
      subst ih
      have href : stateRequestSent.haveSent[(0x5C0000007C000000 : MsgId)]? = some 1 := by
        decide
      obtain rfl := Option.some.inj (href.symm.trans hsent)
      exact absurd hkind (by decide)
  exact absurd (honly _ hacked) (by decide)

end SessionData

end Bettergram.Mtproto
