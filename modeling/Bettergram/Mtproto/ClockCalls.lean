import Bettergram.Mtproto.SessionEvents

/-! # How often the clock is asked

The calls of `msgid` are counted, and no step takes one back.
-/

namespace Bettergram.Mtproto
open Foundation

namespace SessionData

variable (clock : ℕ → MsgId) (m : SendMoment) (request : RequestRef) (msgId : MsgId)
  (s : SessionData)

/-! ## Sending -/

theorem unusedMsgId_calls (fuel : ℕ) (newId : MsgId) (s : SessionData) :
    s.msgIdCalls ≤ (s.unusedMsgId clock fuel newId).2.msgIdCalls := by
  induction fuel generalizing newId s with
  | zero => exact le_rfl
  | succ fuel ih =>
    rw [unusedMsgId]
    split_ifs
    · dsimp only
      split_ifs
      · exact Nat.le_succ _
      · exact (Nat.le_succ s.msgIdCalls).trans (ih _ (s.nextMsgId clock).2)
    · exact le_rfl

theorem prepareToSend_calls :
    (s.prepareToSend request msgId).2.msgIdCalls = s.msgIdCalls := by
  rw [prepareToSend]
  dsimp only
  split_ifs <;> rfl

theorem replaceMsgId_calls :
    s.msgIdCalls ≤ (s.replaceMsgId clock request msgId).2.msgIdCalls := by
  rw [replaceMsgId]
  dsimp only
  split_ifs
  · exact le_rfl
  · exact le_rfl
  · exact s.unusedMsgId_calls clock (s.usedCount + 1) msgId
  · exact le_rfl

theorem placeId_calls (p : Packing) :
    p.session.msgIdCalls ≤ (p.placeId clock request).2.session.msgIdCalls := by
  rw [Packing.placeId]
  have hprepare := p.session.prepareToSend_calls request p.bigMsgId
  generalize p.session.prepareToSend request p.bigMsgId = a at *
  obtain ⟨msgId, s⟩ := a
  dsimp only at hprepare ⊢
  rw [← hprepare]
  have hreplace : s.msgIdCalls ≤ (if p.bigMsgId < msgId then s.replaceMsgId clock request p.bigMsgId
      else (msgId, s)).2.msgIdCalls := by
    split_ifs
    · exact s.replaceMsgId_calls clock request p.bigMsgId
    · exact le_rfl
  refine hreplace.trans ?_
  generalize (if p.bigMsgId < msgId then _ else (msgId, s)) = b
  obtain ⟨msgId, s⟩ := b
  dsimp only
  split_ifs
  · exact Nat.le_succ _
  · exact le_rfl

theorem noteSent_calls : (s.noteSent m request msgId).msgIdCalls = s.msgIdCalls := by
  rw [noteSent]
  dsimp only
  split_ifs <;> rfl

theorem placeRequest_session (p : Packing) : (placeRequest clock m p request).session =
    (p.placeId clock request).2.session.noteSent m request (p.placeId clock request).1 := by
  rw [placeRequest]
  dsimp only
  split_ifs <;> rfl

theorem placeRequest_calls (p : Packing) :
    (placeRequest clock m p request).session.msgIdCalls =
      (p.placeId clock request).2.session.msgIdCalls := by
  rw [placeRequest_session, noteSent_calls]

theorem placeRequests_calls (waiting : List RequestRef) (p : Packing) :
    p.session.msgIdCalls ≤ (waiting.foldl (placeRequest clock m) p).session.msgIdCalls := by
  induction waiting generalizing p with
  | nil => exact le_rfl
  | cons request waiting ih =>
    refine (placeId_calls clock request p).trans ?_
    rw [← placeRequest_calls clock m]
    exact ih _

variable (service : Option RequestRef) (p : Packing)

theorem placeService_calls :
    p.session.msgIdCalls ≤ (placeService clock service p).session.msgIdCalls := by
  cases service with
  | none => exact le_rfl
  | some request => exact placeId_calls clock request p

theorem placePing_calls :
    p.session.msgIdCalls ≤ (placePing clock service p).session.msgIdCalls := by
  cases service with
  | none => exact le_rfl
  | some request => exact placeId_calls clock request p

theorem placeState_calls :
    p.session.msgIdCalls ≤ (placeState clock service p).session.msgIdCalls := by
  cases service with
  | none => exact le_rfl
  | some request => exact placeId_calls clock request p

theorem packMessages_calls (x : Services) (waiting : List RequestRef) :
    p.session.msgIdCalls ≤ (packMessages clock m x waiting p).session.msgIdCalls :=
  (placePing_calls clock _ _).trans <| (placeRequests_calls clock m _ _).trans <|
    (placeState_calls clock _ _).trans <| (placeService_calls clock _ _).trans <|
      (placeService_calls clock _ _).trans (placeService_calls clock _ _)

theorem clearToSend_calls : (clearToSend m s).msgIdCalls = s.msgIdCalls := by
  rw [clearToSend]
  split_ifs <;> rfl

theorem sendAlone_calls : (s.sendAlone clock m request).2.msgIdCalls = s.msgIdCalls + 1 := by
  rw [sendAlone]
  have hprepare := (s.nextMsgId clock).2.prepareToSend_calls request (s.nextMsgId clock).1
  dsimp only
  generalize (s.nextMsgId clock).2.prepareToSend request (s.nextMsgId clock).1 = a at *
  obtain ⟨msgId, t⟩ := a
  dsimp only at hprepare ⊢
  simp only [apply_ite Prod.snd, apply_ite SessionData.msgIdCalls, noteSent_calls, SessionData.update, hprepare,
    ite_self]
  rfl

theorem services_calls : (s.services m).2.msgIdCalls = s.msgIdCalls := by
  have halloc : ∀ (condition : Bool) (d : SecureRequestData) (s : SessionData),
      (s.allocIf condition d).2.msgIdCalls = s.msgIdCalls := by
    intro condition d s
    rw [allocIf]
    split_ifs <;> rfl
  rw [services]
  dsimp only
  simp only [apply_ite SessionData.msgIdCalls, halloc, ite_self]

/-! ## A new session -/

theorem resetOne_calls (x : Resetting) :
    x.session.msgIdCalls ≤ (resetOne clock x msgId request).session.msgIdCalls := by
  rw [resetOne]
  dsimp only
  split_ifs
  · exact le_rfl
  · exact x.session.unusedMsgId_calls clock _ _
  · exact le_rfl

theorem resetAll_calls (requests : List (MsgId × RequestRef)) (x : Resetting) :
    x.session.msgIdCalls ≤
      (requests.foldl (fun x y => resetOne clock x y.1 y.2) x).session.msgIdCalls := by
  induction requests generalizing x with
  | nil => exact le_rfl
  | cons y requests ih => exact (resetOne_calls clock y.2 y.1 x).trans (ih _)

theorem resetSession_calls : s.msgIdCalls + 1 ≤ (s.resetSession clock).msgIdCalls := by
  have hrenumber : ∀ (refs : List RequestRef) (s : SessionData),
      (refs.foldl renumber s).msgIdCalls = s.msgIdCalls := by
    intro refs
    induction refs with
    | nil => exact fun _ => rfl
    | cons ref refs ih => exact fun s => ih _
  have hrename : ∀ (replaces : List (MsgId × MsgId)) (s : SessionData),
      (replaces.foldl (fun s ids => s.renameInMaps ids.1 ids.2) s).msgIdCalls = s.msgIdCalls := by
    intro replaces
    induction replaces with
    | nil => exact fun _ => rfl
    | cons ids replaces ih => exact fun s => ih _
  rw [resetSession]
  dsimp only
  simp only [renameInContainers, hrename, hrenumber]
  exact resetAll_calls clock _
    { session := (s.nextMsgId clock).2, newId := (s.nextMsgId clock).1 }

end SessionData

end Bettergram.Mtproto
