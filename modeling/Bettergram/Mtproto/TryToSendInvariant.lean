import Bettergram.Mtproto.CoreTypesRoundTrip
import Bettergram.Mtproto.SendingInvariant

/-! # After a call of tryToSend

The requests that the connection makes itself are new, so that they are told
from those that wait, and nothing that waits is left out.
-/

namespace Bettergram.Mtproto
open Foundation

namespace SessionData

variable {clock : ℕ → MsgId} {awaiting : Awaiting} {kept : Set RequestRef}
  {s t : SessionData} {m : SendMoment} {made : List (RequestRef × SecureRequestData)}

/-- Requests were made since `s`, and nothing else was changed. -/
structure Makes (clock : ℕ → MsgId) (awaiting : Awaiting) (kept : Set RequestRef)
    (made : List (RequestRef × SecureRequestData)) (s t : SessionData) : Prop where
  inv : Inv clock awaiting (ToCome kept (made.map (·.1))) t
  nodup : (made.map (·.1)).Nodup
  new : ∀ x ∈ made, s.nextRef ≤ x.1
  data : ∀ x ∈ made, t.requests x.1 = x.2
  all : ∀ ref < t.nextRef, s.nextRef ≤ ref → ref ∈ made.map (·.1)
  old : ∀ ref < s.nextRef, t.requests ref = s.requests ref
  nextRef : s.nextRef ≤ t.nextRef
  toSend : t.toSend = s.toSend

/-- What they are made for is still known. -/
structure Making (clock : ℕ → MsgId) (awaiting : Awaiting) (kept : Set RequestRef)
    (made : List (RequestRef × SecureRequestData)) (s t : SessionData) : Prop
    extends Makes clock awaiting kept made s t where
  ackRequestData : t.ackRequestData = s.ackRequestData
  resendRequestData : t.resendRequestData = s.resendRequestData
  stateRequest : t.stateRequest = s.stateRequest

theorem Making.start (h : Inv clock awaiting kept s) : Making clock awaiting kept [] s s := by
  refine ⟨⟨?_, List.nodup_nil, by simp, by simp, fun ref hlt hle => absurd hlt hle.not_gt,
    fun _ _ => rfl, le_rfl, rfl⟩, rfl, rfl, rfl⟩
  exact h.loses { Loses.refl _ _ ∅ _ with waits := by simp, place := fun _ => ⟨.inl, fun _ => id⟩ }

theorem Makes.alloc (h : Makes clock awaiting kept made s t) {d : SecureRequestData}
    (hid : d.msgId = 0)
    (hreq : d.requestId = 0 ∨ (∀ ref < s.nextRef, (s.requests ref).requestId ≠ d.requestId) ∧
      ∀ x ∈ made, x.2.requestId ≠ d.requestId) :
    Makes clock awaiting kept (made ++ [(t.nextRef, d)]) s (t.alloc d).2 := by
  have hself : (t.alloc d).2.requests t.nextRef = d := update_requests_self t _ d
  have hother : ∀ ref < t.nextRef, (t.alloc d).2.requests ref = t.requests ref :=
    fun ref hlt => update_requests_of_ne hlt.ne t d
  have hlt : ∀ x ∈ made, x.1 < t.nextRef := fun x hx =>
    h.inv.waits x.1 (.inr (List.mem_map_of_mem hx))
  have hnew : d.requestId = 0 ∨ ∀ ref < t.nextRef, (t.requests ref).requestId ≠ d.requestId := by
    refine hreq.imp id fun ⟨hold, hmade⟩ ref hlt => ?_
    by_cases hs : ref < s.nextRef
    · rw [h.old ref hs]
      exact hold ref hs
    · obtain ⟨x, hx, rfl⟩ := List.mem_map.mp (h.all ref hlt (not_lt.mp hs))
      rw [h.data x hx]
      exact hmade x hx
  have hset : insert t.nextRef (ToCome kept (made.map (·.1))) =
      ToCome kept ((made ++ [(t.nextRef, d)]).map (·.1)) := by
    ext ref
    simp only [List.map_append, List.map_cons, List.map_nil, Set.mem_insert_iff, Set.mem_union,
      Set.mem_ofPred_eq, List.mem_append, List.mem_singleton]
    tauto
  have hmem : ∀ {x : RequestRef × SecureRequestData}, x ∈ made ++ [(t.nextRef, d)] →
      x ∈ made ∨ x = (t.nextRef, d) := by
    intro x hx
    simpa using hx
  refine ⟨hset ▸ h.inv.alloc (.inl hid) hnew, ?_, fun x hx => ?_, fun x hx => ?_,
    fun ref hlt' hle => ?_, fun ref hlt' => ?_, h.nextRef.trans (Nat.le_succ _), h.toSend⟩
  · rw [List.map_append, List.nodup_append]
    refine ⟨h.nodup, List.nodup_singleton _, ?_⟩
    rintro a ha b hb rfl
    obtain ⟨x, hx, rfl⟩ := List.mem_map.mp ha
    exact (hlt x hx).ne (List.mem_singleton.mp hb)
  · obtain hx | rfl := hmem hx
    · exact h.new x hx
    · exact h.nextRef
  · obtain hx | rfl := hmem hx
    · rw [hother x.1 (hlt x hx), h.data x hx]
    · exact hself
  · rw [List.map_append, List.mem_append]
    obtain hlt' | rfl := Nat.lt_succ_iff_lt_or_eq.mp hlt'
    · exact .inl (h.all ref hlt' hle)
    · exact .inr (List.mem_singleton_self _)
  · rw [hother ref (hlt'.trans_le h.nextRef), h.old ref hlt']

theorem Making.allocIf (h : Making clock awaiting kept made s t) (condition : Bool)
    {d : SecureRequestData} (hid : d.msgId = 0)
    (hreq : d.requestId = 0 ∨ (∀ ref < s.nextRef, (s.requests ref).requestId ≠ d.requestId) ∧
      ∀ x ∈ made, x.2.requestId ≠ d.requestId) :
    Making clock awaiting kept
      (made ++ (t.allocIf condition d).1.toList.map fun ref => (ref, d)) s
      (t.allocIf condition d).2 := by
  rw [SessionData.allocIf]
  split_ifs
  · exact ⟨h.toMakes.alloc hid hreq, h.ackRequestData, h.resendRequestData, h.stateRequest⟩
  · simpa using h

/-- The requests of the connection, as they are made. -/
def Services.requests (m : SendMoment) (x : Services) (s : SessionData) :
    List (RequestRef × SecureRequestData) :=
  (x.ping.toList.map fun ref => (ref, service m (pingBody m) 0)) ++
    (x.ack.toList.map fun ref => (ref, service m (MTPMsgsAck.write s.ackRequestData []) 0)) ++
    (x.resend.toList.map fun ref =>
      (ref, service m (MTPMsgResendReq.write s.resendRequestData []) 0)) ++
    (x.state.toList.map fun ref =>
      (ref, service m (MTPMsgsStateReq.write s.stateRequest.keys []) m.stateRequestId)) ++
    x.httpWait.toList.map fun ref =>
      (ref, service m [mtpc_http_wait.toInt32, 100, 30, 25000] 0)

theorem services_makes (h : Inv clock awaiting kept s) (hnew : s.IsNewRequestId m.stateRequestId) :
    Makes clock awaiting kept ((s.services m).1.requests m s) s (s.services m).2 := by
  have hping := (Making.start h).allocIf (m.pingIdToSend ≠ 0) (d := service m (pingBody m) 0) rfl
    (.inl rfl)
  rw [SessionData.services]
  generalize s.allocIf (m.pingIdToSend ≠ 0) (service m (pingBody m) 0) = a at *
  obtain ⟨ping, s₁⟩ := a
  dsimp only at hping ⊢
  rw [hping.ackRequestData]
  have hack := hping.allocIf (m.connected && s.ackRequestData ≠ [])
    (d := service m (MTPMsgsAck.write s.ackRequestData []) 0) rfl (.inl rfl)
  generalize s₁.allocIf (m.connected && s.ackRequestData ≠ [])
    (service m (MTPMsgsAck.write s.ackRequestData []) 0) = a at *
  obtain ⟨ack, s₂⟩ := a
  dsimp only at hack ⊢
  rw [hack.resendRequestData]
  have hresend := hack.allocIf (m.connected && s.resendRequestData ≠ [])
    (d := service m (MTPMsgResendReq.write s.resendRequestData []) 0) rfl (.inl rfl)
  generalize s₂.allocIf (m.connected && s.resendRequestData ≠ [])
    (service m (MTPMsgResendReq.write s.resendRequestData []) 0) = a at *
  obtain ⟨resend, s₃⟩ := a
  dsimp only at hresend ⊢
  rw [hresend.stateRequest]
  have hstate := hresend.allocIf (m.connected && s.stateRequest.size ≠ 0)
    (d := service m (MTPMsgsStateReq.write s.stateRequest.keys []) m.stateRequestId) rfl
    (.inr ⟨hnew.2.2, ?_⟩)
  swap
  · intro x hx
    have hzero : x.2.requestId = 0 := by
      simp only [List.mem_append, List.mem_map, List.not_mem_nil, false_or] at hx
      obtain (⟨_, -, rfl⟩ | ⟨_, -, rfl⟩) | ⟨_, -, rfl⟩ := hx <;> rfl
    exact hzero ▸ hnew.1.symm
  generalize s₃.allocIf (m.connected && s.stateRequest.size ≠ 0)
    (service m (MTPMsgsStateReq.write s.stateRequest.keys []) m.stateRequestId) = a at *
  obtain ⟨state, s₄⟩ := a
  dsimp only at hstate ⊢
  have hhttpWait := hstate.allocIf (m.connected && m.usingHttpWait)
    (d := service m [mtpc_http_wait.toInt32, 100, 30, 25000] 0) rfl (.inl rfl)
  generalize s₄.allocIf (m.connected && m.usingHttpWait)
    (service m [mtpc_http_wait.toInt32, 100, 30, 25000] 0) = a at *
  obtain ⟨httpWait, s₅⟩ := a
  dsimp only at hhttpWait ⊢
  rw [Services.requests]
  split_ifs
  · exact ⟨hhttpWait.inv.loses { Loses.refl _ _ _ _ with }, hhttpWait.nodup, hhttpWait.new, hhttpWait.data, hhttpWait.all,
      hhttpWait.old, hhttpWait.nextRef, hhttpWait.toSend⟩
  · exact hhttpWait.toMakes

/-! ## What is packed -/

theorem Services.requests_refs (x : Services) :
    (x.requests m s).map (·.1) = x.ping.toList ++ x.ack.toList ++ x.resend.toList ++
      x.state.toList ++ x.httpWait.toList := by
  simp [Services.requests, Function.comp_def]

theorem Services.packed_perm (x : Services) (waiting : List RequestRef) :
    (x.packed waiting).Perm (waiting ++ (x.requests m s).map (·.1)) := by
  rw [List.perm_iff_count]
  intro ref
  simp only [Services.packed, Services.requests_refs, List.count_append, List.count_nil]
  omega

theorem msgIds_write (type : UInt32) (name : String) (ids : List MsgId) :
    (MTPBoxed.codec (msgIdsRequest type name)).write ids [] = type.toInt32 ::
      mtpc_vector.toInt32 :: Int32.ofNat ids.length :: MTPvector.body MTPlong.codec ids := by
  have hwrite := MTPvector.write_eq (lawful_longCodec mtpc_long "MTPlong") ids
    [type.toInt32, mtpc_vector.toInt32]
  exact hwrite

theorem service_isStateRequest (ids : List MsgId) (requestId : RequestId) :
    (service m (MTPMsgsStateReq.write ids []) requestId).isStateRequest := by
  rw [MTPMsgsStateReq, msgIds_write]
  rfl

theorem Makes.own {x : Services} (h : Makes clock awaiting kept (x.requests m s) s t) :
    x.Own t := by
  have hdata : ∀ y ∈ x.requests m s, t.requests y.1 = y.2 := h.data
  constructor
  all_goals intro ref href
  · rw [hdata (ref, service m (pingBody m) 0) (by simp [Services.requests, Option.mem_def.mp href])]
    rfl
  · rw [hdata (ref, service m (MTPMsgsAck.write s.ackRequestData []) 0)
      (by simp [Services.requests, Option.mem_def.mp href])]
    rfl
  · rw [hdata (ref, service m (MTPMsgResendReq.write s.resendRequestData []) 0)
      (by simp [Services.requests, Option.mem_def.mp href])]
    rfl
  · rw [hdata (ref, service m (MTPMsgsStateReq.write s.stateRequest.keys []) m.stateRequestId)
      (by simp [Services.requests, Option.mem_def.mp href])]
    exact service_isStateRequest _ _
  · rw [hdata (ref, service m [mtpc_http_wait.toInt32, 100, 30, 25000] 0)
      (by simp [Services.requests, Option.mem_def.mp href])]
    rfl

theorem services_ping (hping : m.pingIdToSend ≠ 0) : (s.services m).1.ping = some s.nextRef := by
  have hfirst : (s.services m).1.ping =
    (s.allocIf (m.pingIdToSend ≠ 0) (service m (pingBody m) 0)).1 := rfl
  rw [hfirst, allocIf, if_pos (decide_eq_true hping)]
  rfl

/-- The values of `toSend` are different requests. -/
theorem Kept.values_nodup (h : Kept clock awaiting s) : s.toSend.values.Nodup := by
  refine List.Nodup.of_map (fun ref => (s.requests ref).requestId) ?_
  rw [values_eq_map, List.map_map]
  have hkeys : s.toSend.toList.map ((fun ref => (s.requests ref).requestId) ∘ (·.2)) =
      s.toSend.toList.map (·.1) :=
    List.map_congr_left fun x hx =>
      h.toSend x.1 x.2 (Std.TreeMap.mem_toList_iff_getElem?_eq_some.mp hx)
  rw [hkeys, Std.TreeMap.map_fst_toList_eq_keys]
  exact Std.TreeMap.nodup_keys

/-- The list that is sent, with what is left of `toSend`. -/
def waitingList (m : SendMoment) (s : SessionData) : List RequestRef :=
  if m.prependOnly then [] else s.toSend.values

theorem waits_iff (m : SendMoment) (s : SessionData) (ref : RequestRef) :
    ref ∈ s.waitingRefs ↔ ref ∈ (clearToSend m s).waitingRefs ∨ ref ∈ waitingList m s := by
  rw [clearToSend, waitingList]
  split_ifs
  · simp
  · rw [mem_values, mem_waitingRefs, mem_waitingRefs]
    simp

theorem waitingRefs_of_toSend (h : t.toSend = s.toSend) : t.waitingRefs = s.waitingRefs := by
  rw [waitingRefs, waitingRefs, h]

/-- What is packed is not kept, and is packed once. -/
theorem Kept.packed (h : Kept clock awaiting s) {x : Services}
    (hmakes : Makes clock awaiting s.waitingRefs (x.requests m s) s t) :
    (x.packed (waitingList m t)).Nodup ∧
      (∀ ref ∈ x.packed (waitingList m t), ref ∉ (clearToSend m t).waitingRefs) ∧
      Inv clock awaiting (ToCome (clearToSend m t).waitingRefs (x.packed (waitingList m t))) t := by
  have hperm := x.packed_perm (m := m) (s := s) (waitingList m t)
  have hsame : t.waitingRefs = s.waitingRefs := waitingRefs_of_toSend hmakes.toSend
  have hlist : ∀ ref ∈ waitingList m t, ref ∈ s.waitingRefs := fun ref hw =>
    hsame ▸ (waits_iff m t ref).mpr (.inr hw)
  have hnew : ∀ ref ∈ (x.requests m s).map (·.1), ref ∉ s.waitingRefs := by
    intro ref hmem hw
    obtain ⟨y, hy, rfl⟩ := List.mem_map.mp hmem
    exact absurd (h.inv.waits _ hw) (hmakes.new y hy).not_gt
  refine ⟨hperm.nodup_iff.mpr (List.nodup_append.mpr ⟨?_, hmakes.nodup, ?_⟩), fun ref hmem hk => ?_,
    ?_⟩
  · rw [waitingList, hmakes.toSend]
    split_ifs
    · exact List.nodup_nil
    · exact h.values_nodup
  · rintro ref hw _ hmem rfl
    exact hnew ref hmem (hlist ref hw)
  · have hw : ref ∈ s.waitingRefs := hsame ▸ (waits_iff m t ref).mpr (.inl hk)
    obtain hl | hm := List.mem_append.mp (hperm.mem_iff.mp hmem)
    · rw [waitingList] at hl
      rw [clearToSend] at hk
      split_ifs at hl hk
      · simp at hl
      · obtain ⟨k, hk⟩ := hk
        simp at hk
    · exact hnew ref hm hw
  · have hset : ToCome s.waitingRefs ((x.requests m s).map (·.1)) =
        ToCome (clearToSend m t).waitingRefs (x.packed (waitingList m t)) := by
      ext ref
      have hw := waits_iff m t ref
      rw [hsame] at hw
      simp only [Set.mem_union, Set.mem_ofPred_eq, hw, hperm.mem_iff, List.mem_append, or_assoc]
    exact hset ▸ hmakes.inv

theorem Services.packed_length (x : Services) (waiting : List RequestRef) :
    (x.packed waiting).length = waiting.length + x.count := by
  simp only [Services.packed, Services.count, List.length_append, List.length_nil]
  omega

theorem Services.first_mem {x : Services} {waiting : List RequestRef} {ref : RequestRef}
    (h : (x.first <|> waiting.head?) = some ref) : ref ∈ x.packed waiting := by
  simp only [Services.first, Option.orElse_eq_orElse, Option.orElse_eq_or, Option.or_eq_some_iff,
    Option.or_eq_none_iff] at h
  simp only [Services.packed, List.mem_append, Option.mem_toList]
  have hhead : waiting.head? = some ref → ref ∈ waiting := List.mem_of_mem_head?
  tauto

theorem Services.requests_of_none {x : Services} {waiting : List RequestRef}
    (h : (x.first <|> waiting.head?) = none) : (x.requests m s).map (·.1) = [] := by
  simp only [Services.first, Option.orElse_eq_orElse, Option.orElse_eq_or,
    Option.or_eq_none_iff] at h
  rw [Services.requests_refs]
  obtain ⟨⟨hping, hack, hresend, hstate, hwait⟩, -⟩ := h
  simp [hping, hack, hresend, hstate, hwait]

/-- All requests that wait are sent, and those that are not are kept. -/
theorem Kept.tryToSend (h : Kept clock awaiting s)
    (hclock : NewIds clock (s.tryToSend clock m).2.msgIdCalls)
    (hnew : s.IsNewRequestId m.stateRequestId) (hnow : 0 < m.now) :
    Kept clock awaiting (s.tryToSend clock m).2 := by
  rw [SessionData.tryToSend] at hclock ⊢
  by_cases hnothing : m.pingIdToSend = 0 ∧ m.prependOnly
  · rw [if_pos hnothing]
    exact h
  rw [if_neg hnothing] at hclock ⊢
  have hmakes := services_makes h.inv hnew
  have hping : m.pingIdToSend ≠ 0 → (s.services m).1.ping = some s.nextRef := services_ping
  generalize s.services m = made at *
  obtain ⟨x, t⟩ := made
  dsimp only at hmakes hping hclock ⊢
  obtain ⟨hnodup, hapart, hinv⟩ := h.packed hmakes
  have hkeys : ∀ (k : RequestId) (ref : RequestRef), t.toSend[k]? = some ref →
      (t.requests ref).requestId = k := by
    intro k ref hk
    rw [hmakes.toSend] at hk
    rw [hmakes.old ref (h.inv.waits ref ⟨k, hk⟩)]
    exact h.toSend k ref hk
  have hsent : ∀ u : SessionData, Inv clock awaiting (clearToSend m t).waitingRefs u →
      (∀ ref ∈ (clearToSend m t).waitingRefs, u.requests ref = t.requests ref) →
      u.toSend = (clearToSend m t).toSend → Kept clock awaiting u := by
    intro u hu hsame htoSend
    refine ⟨waitingRefs_of_toSend htoSend ▸ hu, fun k ref hk => ?_⟩
    rw [htoSend] at hk
    rw [hsame ref ⟨k, hk⟩]
    refine hkeys k ref ?_
    rw [clearToSend] at hk
    split_ifs at hk
    · exact hk
    · simp at hk
  have hlist : (if m.prependOnly then [] else t.toSend.values) = waitingList m t := rfl
  rw [hlist] at hclock ⊢
  cases hfirst : x.first <|> (waitingList m t).head? with
  | none =>
    have hinv := hmakes.inv
    rw [Services.requests_of_none hfirst] at hinv
    refine ⟨hinv.loses { Loses.refl _ _ ∅ _ with waits := fun ref hw => .inl ?_, place := fun _ => ⟨fun hw => ?_, fun _ => id⟩ },
      hkeys⟩
    · exact waitingRefs_of_toSend hmakes.toSend ▸ hw
    · rw [waitingRefs_of_toSend hmakes.toSend]
      exact hw.resolve_right (by simp)
  | some first =>
    rw [hfirst] at hclock
    dsimp only at hclock ⊢
    split_ifs at hclock ⊢ with hone
    · have hmem := Services.first_mem hfirst
      obtain ⟨ref, hpacked⟩ := List.length_eq_one_iff.mp
        ((x.packed_length (waitingList m t)).trans hone.1)
      rw [hpacked] at hmem hapart hinv
      obtain rfl := List.mem_singleton.mp hmem
      have hclear : Inv clock awaiting (ToCome (clearToSend m t).waitingRefs [first])
          (clearToSend m t) := by
        rw [clearToSend] at hinv ⊢
        split_ifs at hinv ⊢
        · exact hinv
        · exact hinv.loses { Loses.refl _ _ _ _ with }
      have hrequests : (clearToSend m t).requests = t.requests := by
        rw [clearToSend]
        split_ifs <;> rfl
      -- with a ping to send, the only request is the ping
      have hownPing : m.pingIdToSend ≠ 0 →
          ((clearToSend m t).requests first).requestId = 0 := by
        intro hne
        rw [Services.first, hping hne] at hfirst
        rw [hrequests]
        exact hmakes.own.ping first ((hping hne).trans hfirst)
      have hclock : NewIds clock ((clearToSend m t).msgIdCalls + 1) :=
        sendAlone_calls clock m first (clearToSend m t) ▸ hclock
      obtain ⟨hu, hsame, htoSend⟩ := hclear.sendAlone hclock hnow (hapart first hmem) hownPing
      exact hsent _ hu (fun ref hk => (hsame ref hk).trans (congrFun hrequests ref)) htoSend
    · obtain ⟨hu, hsame, htoSend⟩ := hinv.sendContainer hclock hnow hmakes.own hnodup hapart
      exact hsent _ hu hsame htoSend

end SessionData

end Bettergram.Mtproto
