import Bettergram.Mtproto.ClockCalls
import Bettergram.Mtproto.PlacingInvariant

/-! # Everything that waits is sent

Each request of a container is noted where it was sent, so that after the last
one nothing waits.
-/

namespace Bettergram.Mtproto
open Foundation

namespace SessionData

variable {clock : ℕ → MsgId} {awaiting : Awaiting} {waiting : Set RequestRef}
  {s t : SessionData} {ref : RequestRef} {msgId bigMsgId newId : MsgId} {m : SendMoment}

theorem Inv.drop (h : Inv clock awaiting waiting s) (hnot : ∀ requestId, awaiting requestId ≠ some ref) :
    Inv clock awaiting (waiting \ {ref}) s :=
  h.loses { Loses.refl _ _ ∅ _ with
    waits := Set.sdiff_subset
    place := fun {k ref'} hk => by
      have hne : ref' ≠ ref := fun heq => hnot k (heq ▸ hk)
      exact ⟨fun hw => ⟨hw, hne⟩, fun _ => id⟩ }

/-- What is noted of a request that goes out. -/
inductive NoteStep (m : SendMoment) (ref : RequestRef) (msgId : MsgId) (s : SessionData) :
    SessionData → Prop
  | untracked (hreq : (s.requests ref).requestId = 0) : NoteStep m ref msgId s s
  | sent (date : ℤ) (hack : (s.requests ref).needAck)
      (hdate : (s.requests ref).isStateRequest = false → date = m.now) :
      NoteStep m ref msgId s { s.update ref { s.requests ref with msDate := date } with
        haveSent := s.haveSent.insert msgId ref }
  | acked (hack : ¬ (s.requests ref).needAck) :
      NoteStep m ref msgId s { s with
        wereAcked := s.wereAcked.insert msgId (s.requests ref).requestId }

theorem noteSent_step (m : SendMoment) (ref : RequestRef) (msgId : MsgId) (s : SessionData) :
    NoteStep m ref msgId s (s.noteSent m ref msgId) := by
  rw [noteSent]
  dsimp only
  by_cases hreq : (s.requests ref).requestId = 0
  · rw [if_pos hreq]
    exact .untracked hreq
  rw [if_neg hreq]
  by_cases hack : (s.requests ref).needAck
  · rw [if_pos hack]
    exact .sent _ hack fun hstate => by simp [hstate]
  · rw [if_neg hack]
    exact .acked hack

/-- A request that has its id is noted when it goes out. -/
theorem NoteStep.inv (hstep : NoteStep m ref msgId s t) (h : Inv clock awaiting waiting s)
    (hw : ref ∈ waiting) (hid : HasId ref msgId s) (hnow : 0 < m.now) :
    Inv clock awaiting (waiting \ {ref}) t := by
  have hcall : ∀ requestId, awaiting requestId = some ref → IsCallRequest (s.requests ref) := by
    intro requestId hk
    by_contra hnot
    exact h.notAwaited (.inr hnot) requestId hk
  cases hstep with
  | untracked hreq => exact h.drop (h.notAwaited (.inl hreq))
  | sent date hack hdate =>
    cases hid with
    | empty hbody => simp [SecureRequestData.needAck, hbody] at hack
    | given hid hne hresend hlost =>
      have hdated : Inv clock awaiting waiting
          (s.update ref { s.requests ref with msDate := date }) :=
        h.update rfl rfl (fun _ _ _ => ⟨fun hc => ⟨hc.body, hc.type, hc.length⟩, id⟩)
          fun _ _ hsent => absurd hsent (h.apart ref hw _)
      refine hdated.send hw ?_ hne hresend ?_ fun requestId hk => ?_ <;> rw [update_requests_self]
      · exact hid
      · exact hlost
      · dsimp only
        rw [hdate (hcall requestId hk).isStateRequest]
        exact hnow
  | acked hack =>
    refine h.loses { Loses.refl clock _ ∅ _ with
      waits := Set.sdiff_subset
      wereAcked := fun m hm => ?_
      place := fun {k ref'} hk => ?_ }
    · obtain heq | hm := Std.TreeMap.mem_insert.mp hm
      · obtain rfl := Std.LawfulEqCmp.compare_eq_iff_eq.mp heq
        cases hid with
        | empty _ hzero => exact .inr (.inl hzero)
        | given hid hne => exact .inr (hid ▸ h.given ref (h.waits ref hw))
      · exact .inl hm
    · have hne : ref' ≠ ref := by
        rintro rfl
        exact hack (hcall k hk).needAck
      exact ⟨fun hw => ⟨hw, hne⟩, fun _ => id⟩

theorem NoteStep.fresh (hstep : NoteStep m ref msgId s t) (hfresh : Fresh clock newId s)
    (hne : newId ≠ msgId) : Fresh clock newId t := by
  cases hstep with
  | untracked => exact hfresh
  | sent date =>
    refine ⟨⟨hfresh.given, fun ref' hlt => ?_, hfresh.ping⟩, hfresh.toResend,
      hfresh.wereAcked⟩
    dsimp only
    by_cases heq : ref' = ref
    · rw [heq, update_requests_self]
      exact hfresh.unused ref (heq ▸ hlt)
    · rw [update_requests_of_ne heq]
      exact hfresh.unused ref' hlt
  | acked =>
    refine { hfresh with wereAcked := ?_ }
    dsimp only
    rw [insert_getElem?, if_neg hne.symm, hfresh.wereAcked]

/-- What a note does not change. -/
theorem NoteStep.frame (hstep : NoteStep m ref msgId s t) :
    (∀ ref' ≠ ref, t.requests ref' = s.requests ref') ∧
      t.nextRef = s.nextRef ∧ t.toSend = s.toSend := by
  cases hstep with
  | untracked | acked => exact ⟨fun _ _ => rfl, rfl, rfl⟩
  | sent => exact ⟨fun ref' hne => update_requests_of_ne hne _ _, rfl, rfl⟩

theorem HasId.ne (hid : HasId ref msgId s) (hfresh : Fresh clock newId s) (hlt : ref < s.nextRef) :
    newId ≠ msgId := by
  cases hid with
  | empty _ hzero => exact hzero ▸ hfresh.notZero
  | given hid => exact hid ▸ (hfresh.unused ref hlt).symm

/-- The requests that are to come when a container is packed, and those that are not. -/
abbrev ToCome (kept : Set RequestRef) (refs : List RequestRef) : Set RequestRef :=
  kept ∪ {ref | ref ∈ refs}

/-- What holds of a container in which `refs` are to be packed; `s` is how the session was. -/
structure Packs (clock : ℕ → MsgId) (awaiting : Awaiting) (kept : Set RequestRef)
    (refs : List RequestRef) (s : SessionData) (p : Packing) : Prop where
  inv : Inv clock awaiting (ToCome kept refs) p.session
  fresh : Fresh clock p.bigMsgId p.session
  nodup : refs.Nodup
  apart : ∀ ref ∈ refs, ref ∉ kept
  same : ∀ ref ∈ ToCome kept refs, p.session.requests ref = s.requests ref
  nextRef : p.session.nextRef = s.nextRef
  toSend : p.session.toSend = s.toSend

/-- What holds when the next request has got its id and is still to be noted. -/
structure PlacedNext (clock : ℕ → MsgId) (awaiting : Awaiting) (kept : Set RequestRef)
    (ref : RequestRef) (refs : List RequestRef) (s : SessionData) (msgId : MsgId)
    (p : Packing) : Prop where
  inv : Inv clock awaiting (ToCome kept (ref :: refs)) p.session
  fresh : Fresh clock p.bigMsgId p.session
  hasId : HasId ref msgId p.session
  self : ∃ msgId seqNo, p.session.requests ref = { s.requests ref with msgId, seqNo }
  same : ∀ ref' ∈ ToCome kept refs, p.session.requests ref' = s.requests ref'
  nextRef : p.session.nextRef = s.nextRef
  toSend : p.session.toSend = s.toSend

variable {kept : Set RequestRef} {refs : List RequestRef} {p : Packing}

theorem mem_toCome_head : ref ∈ ToCome kept (ref :: refs) := .inr (List.mem_cons_self ..)

theorem toCome_tail (ref : RequestRef) {ref' : RequestRef} (h : ref' ∈ ToCome kept refs) :
    ref' ∈ ToCome kept (ref :: refs) := h.imp id (List.mem_cons_of_mem _)

theorem Packs.ne_head (h : Packs clock awaiting kept (ref :: refs) s p) {ref' : RequestRef}
    (hmem : ref' ∈ ToCome kept refs) : ref' ≠ ref := by
  rintro rfl
  exact hmem.elim (h.apart ref' (List.mem_cons_self ..)) (List.nodup_cons.mp h.nodup).1

theorem Packs.diff_head (h : Packs clock awaiting kept (ref :: refs) s p) :
    ToCome kept (ref :: refs) \ {ref} = ToCome kept refs := by
  ext ref'
  constructor
  · rintro ⟨hmem | hmem, hne⟩
    · exact .inl hmem
    · exact .inr ((List.mem_cons.mp hmem).resolve_left hne)
  · exact fun hmem => ⟨toCome_tail ref hmem, h.ne_head hmem⟩

theorem Packs.placeId (h : Packs clock awaiting kept (ref :: refs) s p)
    (hclock : NewIds clock (p.placeId clock ref).2.session.msgIdCalls) :
    PlacedNext clock awaiting kept ref refs s (p.placeId clock ref).1 (p.placeId clock ref).2 := by
  obtain ⟨msgId, t, newId, hstep, heq⟩ := placeId_step h.inv h.fresh mem_toCome_head
  rw [heq] at hclock ⊢
  obtain ⟨hinv, hfresh, hid, hframe⟩ := hstep.placed hclock h.inv h.fresh mem_toCome_head
  refine ⟨hinv, hfresh, hid, ?_, fun ref' hmem => ?_, hframe.nextRef.trans h.nextRef,
    hframe.toSend.trans h.toSend⟩
  · exact h.same ref mem_toCome_head ▸ hframe.self
  · have hmem' := toCome_tail ref hmem
    exact (hframe.others ref' (h.ne_head hmem) (h.inv.apart ref' hmem')).trans (h.same ref' hmem')

/-- A request of `toSend` is packed. -/
theorem Packs.placeRequest (h : Packs clock awaiting kept (ref :: refs) s p)
    (hclock : NewIds clock (SessionData.placeRequest clock m p ref).session.msgIdCalls)
    (hnow : 0 < m.now) :
    Packs clock awaiting kept refs s (SessionData.placeRequest clock m p ref) := by
  rw [placeRequest_calls] at hclock
  have hp := h.placeId hclock
  have hsession := placeRequest_session clock m ref p
  have hbig : (SessionData.placeRequest clock m p ref).bigMsgId =
      (p.placeId clock ref).2.bigMsgId := by
    rw [SessionData.placeRequest]
    dsimp only
    split_ifs <;> rfl
  have hne := hp.hasId.ne hp.fresh (hp.inv.waits ref mem_toCome_head)
  have hstep := noteSent_step m ref (p.placeId clock ref).1 (p.placeId clock ref).2.session
  rw [← hsession] at hstep
  obtain ⟨hothers, hnext, htoSend⟩ := hstep.frame
  refine ⟨?_, hbig ▸ hstep.fresh hp.fresh hne, h.nodup.of_cons, fun r hr => h.apart r ?_,
    fun ref' hmem => ?_, hnext.trans hp.nextRef, htoSend.trans hp.toSend⟩
  · exact h.diff_head ▸ hstep.inv hp.inv mem_toCome_head hp.hasId hnow
  · exact List.mem_cons_of_mem _ hr
  · exact (hothers ref' (h.ne_head hmem)).trans (hp.same ref' hmem)

theorem Packs.placeRequests {waiting : List RequestRef}
    (h : Packs clock awaiting kept (waiting ++ refs) s p)
    (hclock : NewIds clock
      (waiting.foldl (SessionData.placeRequest clock m) p).session.msgIdCalls)
    (hnow : 0 < m.now) :
    Packs clock awaiting kept refs s (waiting.foldl (SessionData.placeRequest clock m) p) := by
  induction waiting generalizing p with
  | nil => exact h
  | cons ref waiting ih =>
    exact ih (h.placeRequest (hclock.mono (placeRequests_calls clock m waiting _)) hnow) hclock

/-! ## What the connection sends itself -/

/-- A request that is not noted is done with when it has its id. -/
theorem PlacedNext.drop (h : Packs clock awaiting kept (ref :: refs) s p) {q : Packing}
    (hq : PlacedNext clock awaiting kept ref refs s msgId q)
    (hreq : (s.requests ref).requestId = 0) : Packs clock awaiting kept refs s q := by
  have hnot : (q.session.requests ref).requestId = 0 := by
    obtain ⟨id, seqNo, hself⟩ := hq.self
    rw [hself]
    exact hreq
  exact ⟨h.diff_head ▸ hq.inv.drop (hq.inv.notAwaited (.inl hnot)), hq.fresh, h.nodup.of_cons,
    fun r hr => h.apart r (List.mem_cons_of_mem _ hr), hq.same, hq.nextRef, hq.toSend⟩

theorem Packs.placeService {request : Option RequestRef}
    (h : Packs clock awaiting kept (request.toList ++ refs) s p)
    (hclock : NewIds clock (SessionData.placeService clock request p).session.msgIdCalls)
    (hreq : ∀ ref ∈ request, (s.requests ref).requestId = 0) :
    Packs clock awaiting kept refs s (SessionData.placeService clock request p) := by
  cases request with
  | none => exact h
  | some ref =>
    have hp := h.placeId hclock
    have hcopy : PlacedNext clock awaiting kept ref refs s _ ((p.placeId clock ref).2.copy ref) :=
      ⟨hp.inv, hp.fresh, hp.hasId, hp.self, hp.same, hp.nextRef, hp.toSend⟩
    exact hcopy.drop h (hreq ref rfl)

/-- The ping is told from what is sent again. -/
theorem Inv.setPing (h : Inv clock awaiting waiting s) (hlt : ref < s.nextRef)
    (hid : HasId ref msgId s) (hreq : (s.requests ref).requestId = 0) :
    Inv clock awaiting waiting { s with pingMsgId := msgId } := by
  have hping : msgId = 0 ∨ s.Given clock msgId := by
    cases hid with
    | empty _ hz => exact .inl hz
    | given hid => exact hid ▸ h.given ref hlt
  refine { h with
    ping := hping
    ofPing := fun ref' hlt' heq hne => ?_
    awaits := fun k ref' hk => ?_ }
  · cases hid with
    | empty _ hz => exact absurd hz hne
    | given hid =>
      obtain rfl := h.msgIds ref' hlt' ref hlt (heq.symm ▸ hne) (heq.trans hid.symm)
      exact hreq
  · have ha := h.awaits k ref' hk
    exact ⟨ha.stored, ha.hasCallbacks, ha.place, ha.date⟩

theorem Packs.placePing {request : Option RequestRef}
    (h : Packs clock awaiting kept (request.toList ++ refs) s p)
    (hclock : NewIds clock (SessionData.placePing clock request p).session.msgIdCalls)
    (hreq : ∀ ref ∈ request, (s.requests ref).requestId = 0) :
    Packs clock awaiting kept refs s (SessionData.placePing clock request p) := by
  cases request with
  | none => exact h
  | some ref =>
    have hp := h.placeId hclock
    have hlt := hp.inv.waits ref mem_toCome_head
    have hnot : ((p.placeId clock ref).2.session.requests ref).requestId = 0 := by
      obtain ⟨id, seqNo, hself⟩ := hp.self
      rw [hself]
      exact hreq ref rfl
    have hcopy : PlacedNext clock awaiting kept ref refs s _ ((p.placeId clock ref).2.copy ref) :=
      ⟨hp.inv, hp.fresh, hp.hasId, hp.self, hp.same, hp.nextRef, hp.toSend⟩
    have hd := hcopy.drop h (hreq ref rfl)
    have hne := (hp.hasId.ne hp.fresh hlt).symm
    exact ⟨hd.inv.setPing hlt hp.hasId hnot,
      ⟨⟨hd.fresh.given, hd.fresh.unused, hne⟩, hd.fresh.toResend,
        hd.fresh.wereAcked⟩, hd.nodup, hd.apart, hd.same, hd.nextRef, hd.toSend⟩

theorem needAck_of_isStateRequest {d : SecureRequestData} (h : d.isStateRequest) : d.needAck := by
  have hbody : d.body ≠ [] := by
    intro hb
    simp [SecureRequestData.isStateRequest, hb] at h
  simp only [SecureRequestData.isStateRequest, hbody, if_false, decide_eq_true_eq] at h
  simp only [SecureRequestData.needAck, hbody, if_false, h]
  decide

/-- The state request is noted with a zero date. -/
theorem Packs.placeState {request : Option RequestRef}
    (h : Packs clock awaiting kept (request.toList ++ refs) s p)
    (hclock : NewIds clock (SessionData.placeState clock request p).session.msgIdCalls)
    (hnow : 0 < m.now) (hstate : ∀ ref ∈ request, (s.requests ref).isStateRequest) :
    Packs clock awaiting kept refs s (SessionData.placeState clock request p) := by
  cases request with
  | none => exact h
  | some ref =>
    have hp := h.placeId hclock
    have hlt := hp.inv.waits ref mem_toCome_head
    have hstate' : ((p.placeId clock ref).2.session.requests ref).isStateRequest := by
      obtain ⟨id, seqNo, hself⟩ := hp.self
      rw [hself]
      exact hstate ref rfl
    have hstep : NoteStep m ref (p.placeId clock ref).1 (p.placeId clock ref).2.session
        (SessionData.placeState clock (some ref) p).session :=
      .sent 0 (needAck_of_isStateRequest hstate') fun hnot => by simp [hstate'] at hnot
    obtain ⟨hothers, hnext, htoSend⟩ := hstep.frame
    exact ⟨h.diff_head ▸ hstep.inv hp.inv mem_toCome_head hp.hasId hnow,
      hstep.fresh hp.fresh (hp.hasId.ne hp.fresh hlt), h.nodup.of_cons,
      fun r hr => h.apart r (List.mem_cons_of_mem _ hr),
      fun ref' hmem => (hothers ref' (h.ne_head hmem)).trans (hp.same ref' hmem),
      hnext.trans hp.nextRef, htoSend.trans hp.toSend⟩

/-! ## A container -/

/-- The requests in the order in which they are packed. -/
def Services.packed (x : Services) (waiting : List RequestRef) : List RequestRef :=
  x.ping.toList ++ (waiting ++ (x.state.toList ++ (x.resend.toList ++ (x.ack.toList ++
    (x.httpWait.toList ++ [])))))

/-- What the connection sends itself is told from the requests of the session. -/
structure Services.Own (x : Services) (s : SessionData) : Prop where
  ping : ∀ ref ∈ x.ping, (s.requests ref).requestId = 0
  ack : ∀ ref ∈ x.ack, (s.requests ref).requestId = 0
  resend : ∀ ref ∈ x.resend, (s.requests ref).requestId = 0
  state : ∀ ref ∈ x.state, (s.requests ref).isStateRequest
  httpWait : ∀ ref ∈ x.httpWait, (s.requests ref).requestId = 0

theorem Packs.packMessages {x : Services} {waiting : List RequestRef}
    (h : Packs clock awaiting kept (x.packed waiting) s p)
    (hclock : NewIds clock (SessionData.packMessages clock m x waiting p).session.msgIdCalls)
    (hnow : 0 < m.now) (hx : x.Own s) :
    Packs clock awaiting kept [] s (SessionData.packMessages clock m x waiting p) := by
  rw [SessionData.packMessages] at hclock ⊢
  have hack := hclock.mono (placeService_calls clock x.httpWait _)
  have hresend := hack.mono (placeService_calls clock x.ack _)
  have hstate := hresend.mono (placeService_calls clock x.resend _)
  have hwaiting := hstate.mono (placeState_calls clock x.state _)
  have hping := hwaiting.mono (placeRequests_calls clock m waiting _)
  exact (((((h.placePing hping hx.ping).placeRequests hwaiting hnow).placeState hstate hnow
    hx.state).placeService hresend hx.resend).placeService hack hx.ack).placeService hclock
      hx.httpWait

/-- The ids of a container are kept under its own id, in a request of no one. -/
theorem Inv.keepIds (h : Inv clock awaiting waiting s) (hfresh : Fresh clock bigMsgId s)
    (ids : List MsgId) :
    Inv clock awaiting waiting { (s.alloc (idsWrap bigMsgId ids)).2 with
      haveSent := s.haveSent.insert bigMsgId s.nextRef } := by
  have hself : (s.alloc (idsWrap bigMsgId ids)).2.requests s.nextRef = idsWrap bigMsgId ids :=
    s.update_requests_self _ _
  have hnew : s.nextRef ∉ waiting := fun hw => absurd (h.waits _ hw) (lt_irrefl _)
  have halloc := h.alloc (d := idsWrap bigMsgId ids) (.inr hfresh.toUnused) (.inl rfl)
  have hid : ((s.alloc (idsWrap bigMsgId ids)).2.requests s.nextRef).msgId = bigMsgId := by
    rw [hself]
    rfl
  have hsend := halloc.send (Set.mem_insert _ _) hid hfresh.notZero hfresh.toResend (by rw [hself]; exact fun hne => absurd rfl hne)
    fun k hk => absurd hk (halloc.notAwaited (.inl (by rw [hself]; rfl)) k)
  rwa [Set.insert_sdiff_self_of_notMem hnew] at hsend

/-- After a container nothing of what was to be packed waits. -/
theorem Inv.sendContainer {x : Services} {waiting : List RequestRef}
    (hclock : NewIds clock (s.sendContainer clock m x waiting).2.msgIdCalls)
    (hnow : 0 < m.now) (hx : x.Own s)
    (hnodup : (x.packed waiting).Nodup) (hapart : ∀ ref ∈ x.packed waiting, ref ∉ kept)
    (h : Inv clock awaiting (ToCome kept (x.packed waiting)) s) :
    Inv clock awaiting kept (s.sendContainer clock m x waiting).2 ∧
      (∀ ref ∈ kept, (s.sendContainer clock m x waiting).2.requests ref = s.requests ref) ∧
        (s.sendContainer clock m x waiting).2.toSend = (clearToSend m s).toSend := by
  rw [SessionData.sendContainer] at hclock ⊢
  dsimp only at hclock ⊢
  rw [clearToSend_calls] at hclock
  generalize hq : SessionData.packMessages clock m x waiting _ = q at *
  have hclock : NewIds clock q.session.msgIdCalls := hclock
  have hpacks : Packs clock awaiting kept [] s q := by
    subst hq
    obtain ⟨hinv, hfresh⟩ := h.nextMsgId
      (hclock.mono ((packMessages_calls clock m _ x waiting).trans' le_rfl))
    exact Packs.packMessages ⟨hinv, hfresh, hnodup, hapart, fun _ _ => rfl, rfl, rfl⟩ hclock hnow hx
  have hkept : ToCome kept [] = kept := by
    ext ref
    simp
  have hnumbered : Inv clock awaiting kept (q.session.nextRequestSeqNumber false).2 :=
    (hkept ▸ hpacks.inv).loses { Loses.refl _ _ _ _ with }
  have hfresh' : Fresh clock q.bigMsgId (q.session.nextRequestSeqNumber false).2 :=
    ⟨⟨hpacks.fresh.given, hpacks.fresh.unused, hpacks.fresh.ping⟩,
      hpacks.fresh.toResend, hpacks.fresh.wereAcked⟩
  refine ⟨?_, ?_, ?_⟩
  · have hkeep := hnumbered.keepIds hfresh' q.ids
    rw [clearToSend]
    split_ifs
    · exact hkeep
    · exact hkeep.loses { Loses.refl _ _ _ _ with }
  · intro ref hmem
    have hne : ref ≠ q.session.nextRef := (hnumbered.waits ref hmem).ne
    have hsame := hpacks.same ref (.inl hmem)
    rw [clearToSend]
    split_ifs
    · exact (update_requests_of_ne hne _ _).trans hsame
    · exact (update_requests_of_ne hne _ _).trans hsame
  · rw [clearToSend, clearToSend]
    split_ifs
    · exact hpacks.toSend
    · rfl

/-! ## One request alone -/

/-- The padding stands behind the words of a request. -/
theorem addPadding_same (d : SecureRequestData) : SameRequest d (addPadding m d) := by
  rw [addPadding]
  split_ifs with hbody
  · exact .refl d
  dsimp only
  split_ifs
  · exact .refl d
  refine ⟨fun hcall => ?_, id⟩
  have hinner : d.innerLength = d.messageLength := by
    rw [SecureRequestData.innerLength, if_neg hbody]
  obtain ⟨word, words, hd⟩ := List.exists_cons_of_ne_nil hbody
  obtain ⟨n, hn⟩ := Nat.exists_eq_add_of_le' hcall.length
  rw [hinner, hn, hd]
  have htype := hcall.type
  rw [SecureRequestData.type, hd] at htype
  exact ⟨by simp, htype, hn.symm ▸ Nat.le_add_left 1 n⟩

theorem addPadding_ids (d : SecureRequestData) :
    (addPadding m d).msgId = d.msgId ∧ (addPadding m d).requestId = d.requestId ∧
      (addPadding m d).msDate = d.msDate := by
  rw [addPadding]
  dsimp only
  split_ifs <;> exact ⟨rfl, rfl, rfl⟩

theorem Inv.addPadding (h : Inv clock awaiting waiting s) (ref : RequestRef) :
    Inv clock awaiting waiting (s.update ref (addPadding m (s.requests ref))) := by
  obtain ⟨hmsgId, hreq, hdate⟩ := addPadding_ids (m := m) (s.requests ref)
  exact h.update hmsgId hreq (fun _ _ _ => addPadding_same _) fun _ _ _ hd => hdate ▸ hd

theorem Inv.sendAlone (hclock : NewIds clock (s.msgIdCalls + 1))
    (hnow : 0 < m.now) (hapart : ref ∉ kept) (h : Inv clock awaiting (ToCome kept [ref]) s)
    (hping : m.pingIdToSend ≠ 0 → (s.requests ref).requestId = 0) :
    Inv clock awaiting kept (s.sendAlone clock m ref).2 ∧
      (∀ ref' ∈ kept, (s.sendAlone clock m ref).2.requests ref' = s.requests ref') ∧
        (s.sendAlone clock m ref).2.toSend = s.toSend := by
  obtain ⟨hinv, hfresh⟩ := h.nextMsgId hclock
  obtain ⟨hprepared, hid, hframe⟩ := hinv.prepareToSend hfresh mem_toCome_head
  rw [SessionData.sendAlone]
  dsimp only
  generalize hq : (s.nextMsgId clock).2.prepareToSend ref (s.nextMsgId clock).1 = q at *
  obtain ⟨msgId, t⟩ := q
  dsimp only at hprepared hid hframe ⊢
  -- the id of a ping is kept before the request is noted
  generalize hu : (if m.pingIdToSend ≠ 0 then { t with pingMsgId := msgId } else t :
    SessionData) = u
  have hu' : Inv clock awaiting (ToCome kept [ref]) u ∧ HasId ref msgId u ∧
      u.requests = t.requests ∧ u.toSend = t.toSend := by
    rw [← hu]
    split_ifs with hp
    · have hreq := (hframe.requestId ref).trans (hping hp)
      refine ⟨hprepared.setPing (hprepared.waits ref mem_toCome_head) hid hreq, ?_, rfl, rfl⟩
      cases hid with
      | empty hbody hz => exact .empty hbody hz
      | given hid hne hresend hlost => exact .given hid hne hresend hlost
    · exact ⟨hprepared, hid, rfl, rfl⟩
  obtain ⟨hinvU, hidU, hreqU, htoSendU⟩ := hu'
  have hstep := noteSent_step m ref msgId u
  generalize u.noteSent m ref msgId = v at *
  have hkept : ToCome kept [ref] \ {ref} = kept := by
    ext r
    simp only [Set.mem_sdiff, Set.mem_union, Set.mem_ofPred_eq, List.mem_singleton,
      Set.mem_singleton_iff]
    constructor
    · exact fun hr => hr.1.resolve_right hr.2
    · exact fun hr => ⟨.inl hr, fun heq => hapart (heq ▸ hr)⟩
  have hinvV : Inv clock awaiting kept v := hkept ▸ hstep.inv hinvU mem_toCome_head hidU hnow
  have hsame : ∀ r ∈ kept, v.requests r = s.requests r := by
    intro r hr
    have hne : r ≠ ref := ne_of_mem_of_not_mem hr hapart
    rw [hstep.frame.1 r hne, hreqU, hframe.others r hne (hinv.apart r (.inl hr))]
    rfl
  have htoSend : v.toSend = s.toSend := hstep.frame.2.2.trans (htoSendU.trans hframe.toSend)
  simp only [apply_ite Prod.snd]
  split_ifs
  · exact ⟨hinvV, hsame, htoSend⟩
  · exact ⟨hinvV.addPadding ref, fun r hr =>
      (update_requests_of_ne (ne_of_mem_of_not_mem hr hapart) _ _).trans (hsame r hr), htoSend⟩

end SessionData

end Bettergram.Mtproto
