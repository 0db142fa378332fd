import Bettergram.Mtproto.SessionInvariant

/-! # Moves of requests

A request is made, sent, lost and sent again. Each move keeps what holds of the
places of the requests.
-/

namespace Bettergram.Mtproto
open Foundation

namespace SessionData

variable {clock : ℕ → MsgId} {awaiting : Awaiting} {waiting waiting' : Set RequestRef}
  {s t : SessionData} {ref : RequestRef} {msgId : MsgId} {requestId : RequestId}

/-- A new request awaits nothing yet. -/
theorem Inv.alloc (h : Inv clock awaiting waiting s) {d : SecureRequestData}
    (hid : d.msgId = 0 ∨ Unused clock d.msgId s)
    (hreq : d.requestId = 0 ∨ ∀ ref < s.nextRef, (s.requests ref).requestId ≠ d.requestId) :
    Inv clock awaiting (insert s.nextRef waiting) (s.alloc d).2 := by
  have hself : (s.alloc d).2.requests s.nextRef = d := s.update_requests_self _ d
  have hother : ∀ ref < s.nextRef, (s.alloc d).2.requests ref = s.requests ref :=
    fun ref href => s.update_requests_of_ne href.ne d
  have hcases : ∀ ref < (s.alloc d).2.nextRef, ref = s.nextRef ∨ ref < s.nextRef := by
    intro ref href
    exact (Nat.lt_succ_iff_lt_or_eq.mp href).symm
  have hlater : ∀ ref < s.nextRef, ref < (s.alloc d).2.nextRef := fun _ => Nat.lt_succ_of_lt
  refine ⟨fun ref href => ?_, fun ref href ref' href' hne heq => ?_,
    fun ref href ref' href' hne heq => ?_, fun m ref hm => ?_, fun ref hw => ?_,
    fun ref hw m hm => ?_, fun m ref hm => ?_, fun m k hk => ?_, fun m k hk hk0 ref hw hr => ?_,
    h.unsent, h.wereAcked, h.ping, fun ref href => ?_, fun k ref hk => ?_, fun k hk => ?_,
    fun k ref hk => ?_⟩
  · obtain rfl | hlt := hcases ref href
    · rw [hself]
      exact hid.imp id fun hunused => hunused.given
    · rw [hother ref hlt]
      exact h.given ref hlt
  · obtain rfl | hlt := hcases ref href <;> obtain rfl | hlt' := hcases ref' href'
    · rfl
    · rw [hself] at hne heq
      rw [hother ref' hlt'] at heq
      exact absurd heq.symm ((hid.resolve_left hne).unused ref' hlt')
    · rw [hother ref hlt] at hne heq
      rw [hself] at heq
      exact absurd heq ((hid.resolve_left (heq ▸ hne)).unused ref hlt)
    · rw [hother ref hlt] at hne heq
      rw [hother ref' hlt'] at heq
      exact h.msgIds ref hlt ref' hlt' hne heq
  · obtain rfl | hlt := hcases ref href <;> obtain rfl | hlt' := hcases ref' href'
    · rfl
    · rw [hself] at hne heq
      rw [hother ref' hlt'] at heq
      exact absurd heq.symm (hreq.resolve_left hne ref' hlt')
    · rw [hother ref hlt] at hne heq
      rw [hself] at heq
      exact absurd heq (hreq.resolve_left (heq ▸ hne) ref hlt)
    · rw [hother ref hlt] at hne heq
      rw [hother ref' hlt'] at heq
      exact h.requestIds ref hlt ref' hlt' hne heq
  · obtain ⟨hlt, hrest⟩ := h.haveSent m ref hm
    rw [hother ref hlt]
    exact ⟨hlater ref hlt, hrest⟩
  · obtain rfl | hw := hw
    · exact Nat.lt_succ_self _
    · exact hlater ref (h.waits ref hw)
  · obtain rfl | hw := hw
    · exact absurd (h.haveSent m _ hm).1 (lt_irrefl _)
    · exact h.apart ref hw m hm
  · rw [hother ref (h.haveSent m ref hm).1]
    exact h.sent m ref hm
  · obtain ⟨hgiven, ref, hlt, hr⟩ := h.toResend m k hk
    exact ⟨hgiven, ref, hlater ref hlt, by rw [hother ref hlt, hr]⟩
  · obtain rfl | hw := hw
    · obtain ⟨-, ref, hlt, hr'⟩ := h.toResend m k hk
      rw [hself] at hr
      exact absurd (hr'.trans hr.symm) (hreq.resolve_left (hr ▸ hk0) ref hlt)
    · rw [hother ref (h.waits ref hw)] at hr ⊢
      exact h.lost m k hk hk0 ref hw hr
  · obtain rfl | hlt := hcases ref href
    · rw [hself]
      intro heq hne
      have hping : s.pingMsgId ≠ d.msgId := (hid.resolve_left fun hz => hne (heq.symm.trans hz)).ping
      exact absurd heq.symm hping
    · rw [hother ref hlt]
      exact h.ofPing ref hlt
  · obtain ⟨hlt, hrest⟩ := h.stored k ref hk
    rw [hother ref hlt]
    exact ⟨hlater ref hlt, hrest⟩
  · obtain ⟨ref, hlt, hr⟩ := h.called k hk
    exact ⟨ref, hlater ref hlt, by rw [hother ref hlt, hr]⟩
  · have ha := h.awaits k ref hk
    refine ⟨ha.stored, ha.hasCallbacks, ?_, ?_⟩ <;> rw [hother ref (h.stored k ref ha.stored).1]
    · exact ha.place.imp .inr id
    · exact ha.date

/-- A request is sent: it waits no more. -/
theorem Inv.send (h : Inv clock awaiting waiting s) (hw : ref ∈ waiting)
    (hid : (s.requests ref).msgId = msgId) (hne : msgId ≠ 0) (hresend : s.toResend[msgId]? = none)
    (hlost : (s.requests ref).requestId ≠ 0 →
      ∀ m : MsgId, s.toResend[m]? ≠ some (s.requests ref).requestId)
    (hdate : ∀ requestId, awaiting requestId = some ref → 0 < (s.requests ref).msDate) :
    Inv clock awaiting (waiting \ {ref})
      { s with haveSent := s.haveSent.insert msgId ref } := by
  have hcases : ∀ (m : MsgId) (ref' : RequestRef),
      (s.haveSent.insert msgId ref)[m]? = some ref' →
        ref' = ref ∧ m = msgId ∨ s.haveSent[m]? = some ref' := by
    intro m ref' hm
    rw [insert_getElem?] at hm
    split_ifs at hm with heq
    · exact .inl ⟨(Option.some.inj hm).symm, heq.symm⟩
    · exact .inr hm
  refine { h with
    haveSent := fun m ref' hm => ?_
    waits := fun ref' hw' => h.waits ref' hw'.1
    apart := fun ref' hw' m hm => ?_
    sent := fun m ref' hm => ?_
    lost := fun m k hk hk0 ref' hw' => h.lost m k hk hk0 ref' hw'.1
    unsent := fun m k hk => ?_
    awaits := fun k ref' hk => ?_ }
  · obtain ⟨rfl, rfl⟩ | hm := hcases m ref' hm
    · exact ⟨h.waits _ hw, hid, hne⟩
    · exact h.haveSent m ref' hm
  · obtain ⟨heq, -⟩ | hm := hcases m ref' hm
    · exact hw'.2 heq
    · exact h.apart ref' hw'.1 m hm
  · obtain ⟨rfl, -⟩ | hm := hcases m ref' hm
    · exact hlost
    · exact h.sent m ref' hm
  · dsimp only
    rw [insert_getElem?, if_neg, h.unsent m k hk]
    rintro rfl
    simp [hresend] at hk
  · have ha := h.awaits k ref' hk
    by_cases heq : ref' = ref
    · subst heq
      refine ⟨ha.stored, ha.hasCallbacks, .inr ?_, fun _ => hdate k hk⟩
      dsimp only
      rw [insert_getElem?, if_pos hid.symm]
    · refine ⟨ha.stored, ha.hasCallbacks, ?_, fun hm => ?_⟩
      · refine ha.place.imp (⟨·, heq⟩) fun hm => ?_
        dsimp only
        rw [insert_getElem?, if_neg, hm]
        intro hsame
        have hlt := (h.haveSent _ ref' hm).1
        exact heq (h.msgIds ref' hlt ref (h.waits ref hw) (hsame ▸ hne) (hsame.symm.trans hid.symm))
      · exact ha.date ((hcases _ ref' hm).resolve_left fun hsame => heq hsame.1)

/-- A message that was sent is lost: its request waits again, in the place of one with its id. -/
theorem Inv.lose (h : Inv clock awaiting waiting s) (hsent : s.haveSent[msgId]? = some ref)
    (hwaits : ∀ ref' ∈ waiting', ref' = ref ∨ ref' ∈ waiting)
    (hkeep : ∀ ref' ∈ waiting, (s.requests ref').requestId ≠ (s.requests ref).requestId →
      ref' ∈ waiting')
    (hself : ref ∈ waiting') :
    Inv clock awaiting waiting' { s with
      haveSent := s.haveSent.erase msgId
      toResend := s.toResend.insert msgId (s.requests ref).requestId } := by
  obtain ⟨hlt, hid, hne⟩ := h.haveSent msgId ref hsent
  have herase : ∀ (m : MsgId) (ref' : RequestRef), (s.haveSent.erase msgId)[m]? = some ref' →
      m ≠ msgId ∧ s.haveSent[m]? = some ref' := by
    intro m ref' hm
    obtain ⟨hm', hm⟩ := getElem?_of_erase hm
    exact ⟨hm'.symm, hm⟩
  have hgone : ∀ m : MsgId, (s.haveSent.erase msgId)[m]? ≠ some ref := by
    intro m hm
    obtain ⟨hm', hm⟩ := herase m ref hm
    exact hm' ((h.haveSent m ref hm).2.1.symm.trans hid)
  have hinsert : ∀ (m : MsgId) (k : RequestId),
      (s.toResend.insert msgId (s.requests ref).requestId)[m]? = some k →
        m = msgId ∧ k = (s.requests ref).requestId ∨ s.toResend[m]? = some k := by
    intro m k hk
    rw [insert_getElem?] at hk
    split_ifs at hk with heq
    · exact .inl ⟨heq.symm, (Option.some.inj hk).symm⟩
    · exact .inr hk
  refine { h with
    haveSent := fun m ref' hm => h.haveSent m ref' (herase m ref' hm).2
    waits := fun ref' hw => ?_
    apart := fun ref' hw m hm => ?_
    sent := fun m ref' hm hk0 lost hlost => ?_
    toResend := fun m k hk => ?_
    lost := fun m k hk hk0 ref' hw hreq => ?_
    unsent := fun m k hk => ?_
    awaits := fun k ref' hk => ?_ }
  · obtain rfl | hw := hwaits ref' hw
    · exact hlt
    · exact h.waits ref' hw
  · obtain rfl | hw := hwaits ref' hw
    · exact hgone m hm
    · exact h.apart ref' hw m (herase m ref' hm).2
  · obtain ⟨hm', hm⟩ := herase m ref' hm
    obtain ⟨-, hk⟩ | hlost := hinsert _ _ hlost
    · obtain ⟨hlt', hid', -⟩ := h.haveSent m ref' hm
      obtain rfl := h.requestIds ref' hlt' ref hlt hk0 hk
      exact hm' (hid'.symm.trans hid)
    · exact h.sent m ref' hm hk0 lost hlost
  · obtain ⟨rfl, rfl⟩ | hk := hinsert m k hk
    · refine ⟨?_, ref, hlt, rfl⟩
      exact hid ▸ (h.given ref hlt).resolve_left (hid.symm ▸ hne)
    · exact h.toResend m k hk
  · subst hreq
    obtain ⟨rfl, hsame⟩ | hk' := hinsert m _ hk
    · obtain rfl | hw := hwaits ref' hw
      · exact hid
      · obtain rfl := h.requestIds ref' (h.waits ref' hw) ref hlt hk0 hsame
        exact hid
    · obtain rfl | hw := hwaits ref' hw
      · exact absurd hk' (h.sent msgId ref' hsent hk0 m)
      · exact h.lost m _ hk' hk0 ref' hw rfl
  · dsimp only
    rw [erase_getElem?]
    split_ifs with heq
    · rfl
    · obtain ⟨rfl, -⟩ | hk := hinsert m k hk
      · exact absurd rfl heq
      · exact h.unsent m k hk
  · have ha := h.awaits k ref' hk
    obtain ⟨hlt', hreq, hcall⟩ := h.stored k ref' ha.stored
    by_cases heq : ref' = ref
    · subst heq
      exact ⟨ha.stored, ha.hasCallbacks, .inl hself, fun hm => absurd hm (hgone _)⟩
    · refine ⟨ha.stored, ha.hasCallbacks, ?_, fun hm => ha.date (herase _ ref' hm).2⟩
      refine ha.place.imp (fun hw => hkeep ref' hw ?_) fun hm => ?_
      · intro hsame
        have hk0 := (hcall ha.hasCallbacks).isRequest.1
        exact heq (h.requestIds ref' hlt' ref hlt (hreq.symm ▸ hk0) hsame)
      · dsimp only
        rw [erase_getElem?, if_neg, hm]
        rintro rfl
        exact heq (Option.some.inj (hm.symm.trans hsent))

/-- A request that is nowhere waits, in the place of one with its id. -/
theorem Inv.wait (h : Inv clock awaiting waiting s) (hlt : ref < s.nextRef)
    (hsent : ∀ m : MsgId, s.haveSent[m]? ≠ some ref)
    (hlost : (s.requests ref).requestId ≠ 0 →
      ∀ m : MsgId, s.toResend[m]? ≠ some (s.requests ref).requestId)
    (hwaits : ∀ ref' ∈ waiting', ref' = ref ∨ ref' ∈ waiting)
    (hkeep : ∀ ref' ∈ waiting, (s.requests ref').requestId ≠ (s.requests ref).requestId →
      ref' ∈ waiting')
    (hself : ref ∈ waiting') : Inv clock awaiting waiting' s := by
  refine { h with
    waits := fun ref' hw => ?_
    apart := fun ref' hw => ?_
    lost := fun m k hk hk0 ref' hw hreq => ?_
    awaits := fun k ref' hk => ?_ }
  · obtain rfl | hw := hwaits ref' hw
    · exact hlt
    · exact h.waits ref' hw
  · obtain rfl | hw := hwaits ref' hw
    · exact hsent
    · exact h.apart ref' hw
  · obtain rfl | hw := hwaits ref' hw
    · subst hreq
      exact absurd hk (hlost hk0 m)
    · exact h.lost m k hk hk0 ref' hw hreq
  · have ha := h.awaits k ref' hk
    obtain ⟨hlt', hreq, hcall⟩ := h.stored k ref' ha.stored
    refine ⟨ha.stored, ha.hasCallbacks, ha.place.imp (fun hw => ?_) id, ha.date⟩
    by_cases hsame : (s.requests ref').requestId = (s.requests ref).requestId
    · have hk0 := (hcall ha.hasCallbacks).isRequest.1
      exact h.requestIds ref' hlt' ref hlt (hreq.symm ▸ hk0) hsame ▸ hself
    · exact hkeep ref' hw hsame

/-- A request with callbacks that waits may await its answer. -/
theorem Inv.await (h : Inv clock awaiting waiting s) (hstored : s.requestMap requestId = some ref)
    (hcall : s.hasCallbacks requestId) (hw : ref ∈ waiting) :
    Inv clock (Function.update awaiting requestId (some ref)) waiting s := by
  refine { h with awaits := fun k ref' hk => ?_ }
  rw [Function.update_apply] at hk
  split_ifs at hk with heq
  · obtain rfl := Option.some.inj hk
    exact heq ▸ ⟨hstored, hcall, .inl hw, fun hm => absurd hm (h.apart _ hw _)⟩
  · exact h.awaits k ref' hk

end SessionData

end Bettergram.Mtproto
