import Bettergram.Mtproto.TryToSend

/-! # Requests come and go

A new request waits to be sent. One that was lost waits again with its id, so
that a late answer still finds it, and one that is cancelled is forgotten.
-/

namespace Bettergram.Mtproto

namespace SessionData

/-- Nulls the id and the number of a new request. -/
def sendPrepared (request : RequestRef) (newRequest : Bool) (s : SessionData) : SessionData :=
  let d := s.requests request
  let s := { s with toSend := s.toSend.insert d.requestId request }
  if newRequest then s.update request { d with msgId := 0, seqNo := 0 } else s

/-- What is passed to `Instance::sendRequest`; `after` is the request that has to be sent before. -/
structure NewRequest where
  requestId : RequestId
  body : List Int32
  callbacks : Bool
  needsLayer : Bool
  afterRequestId : RequestId
  now : ℤ

/-- The callbacks and the request are kept under an id that is not known yet. -/
def storeRequest (requestId : RequestId) (request : RequestRef) (callbacks : Bool)
    (s : SessionData) : SessionData :=
  { s with
    parserMap := Function.update s.parserMap requestId (s.parserMap requestId || callbacks)
    requestMap := Function.update s.requestMap requestId
      ((s.requestMap requestId).or (some request)) }

def unregisterRequest (requestId : RequestId) (s : SessionData) : SessionData :=
  { s with requestMap := Function.update s.requestMap requestId none }

def clearCallbacks (requestId : RequestId) (s : SessionData) : SessionData :=
  { s with parserMap := Function.update s.parserMap requestId false }

def sendRequest (r : NewRequest) (s : SessionData) : SessionData :=
  let (request, s) := s.alloc
    { SecureRequestData.serialize r.body with requestId := r.requestId }
  let s := s.storeRequest r.requestId request r.callbacks
  let after := if r.afterRequestId = 0 then none else s.requestMap r.afterRequestId
  let s := s.update request { s.requests request with
    after, msDate := r.now, needsLayer := r.needsLayer }
  s.sendPrepared request true

def cancel (requestId : RequestId) (s : SessionData) : SessionData :=
  if requestId = 0 then s
  else
    let msgId := ((s.requestMap requestId).map fun request => (s.requests request).msgId).getD 0
    let s := s.unregisterRequest requestId
    let s := { s with toSend := s.toSend.erase requestId }
    let s := if msgId = 0 then s else { s with haveSent := s.haveSent.erase msgId }
    s.clearCallbacks requestId

/-- The messages of a container are sent again one by one, so a call of itself follows the loss of
the container; `now` is the clock. -/
def resendFrom (now : ℤ) : ℕ → Bool → SessionData → MsgId → SessionData
  | 0, _, s, _ => s
  | fuel + 1, forceContainer, s, msgId =>
    match s.haveSent[msgId]? with
    | none => s
    | some request =>
      let s := { s with haveSent := s.haveSent.erase msgId }
      let d := s.requests request
      if d.isSentContainer then d.sentIds.foldl (resendFrom now fuel true) s
      else if !d.isStateRequest then
        let s := s.update request { d with msDate := if forceContainer then 0 else now }
        let s := s.sendPrepared request false
        { s with toResend := s.toResend.insert msgId d.requestId }
      else s

/-- Nothing is answered when a message is not found: `sendMsgStateInfo` is not set. -/
def resend (now : ℤ) (msgId : MsgId) (forceContainer : Bool) (s : SessionData) : SessionData :=
  s.resendFrom now (s.haveSent.size + 1) forceContainer msgId

def resendMany (now : ℤ) (msgIds : List MsgId) (forceContainer : Bool) (s : SessionData) :
    SessionData :=
  msgIds.foldl (fun s msgId => s.resend now msgId forceContainer) s

/-- The ids up to a bound of what is not a container. -/
def requestMsgIds (before : MsgId → Bool) (s : SessionData) : List MsgId :=
  (s.haveSent.toList.filter fun x => before x.1 && (s.requests x.2).requestId ≠ 0).map (·.1)

def resendAll (now : ℤ) (s : SessionData) : SessionData :=
  s.resendMany now (s.requestMsgIds fun _ => true) true

/-! ## The timer -/

def kCheckResendTimeout : ℤ := 10000
def kResendThreshold : UInt32 := 1
def kContainerLives : ℤ := 600

/-- What the timer finds among the messages: those that were sent long ago, with or without
something to ask for, and zero dates whose time is over. -/
def isOld (ms : ℤ) (d : SecureRequestData) : Bool :=
  0 < d.msDate ∧ d.msDate + kCheckResendTimeout < ms

def isForgotten (unixtime : ℤ) (msgId : MsgId) (d : SecureRequestData) : Bool :=
  ¬ 0 < d.msDate ∧ (msgId >>> 32).toUInt32.toInt32.toInt + kContainerLives < unixtime

/-- The state of a message is asked for, and asked for again when as much time has passed. -/
def requestState (ms : ℤ) (s : SessionData) (sent : MsgId × RequestRef) : SessionData :=
  let s := s.update sent.2 { s.requests sent.2 with msDate := ms }
  { s with stateRequest := s.stateRequest.insert sent.1 true }

def forget (s : SessionData) (msgId : MsgId) : SessionData :=
  match s.haveSent[msgId]? with
  | none => s
  | some request =>
    let requestId := (s.requests request).requestId
    { s with
      haveSent := s.haveSent.erase msgId
      clearDelayed := if requestId = 0 then s.clearDelayed else s.clearDelayed ++ [(requestId, 0)] }

def checkRequestsByTimer (ms unixtime : ℤ) (s : SessionData) : SessionData :=
  let old := s.haveSent.toList.filter fun x => isOld ms (s.requests x.2)
  let small (x : MsgId × RequestRef) : Bool := (s.requests x.2).messageSize < kResendThreshold
  let removing := s.haveSent.toList.filter fun x => isForgotten unixtime x.1 (s.requests x.2)
  let s := (old.filter fun x => !small x).foldl (requestState ms) s
  let s := s.resendMany ms ((old.filter small).map (·.1)) false
  (removing.map (·.1)).foldl forget s

end SessionData

end Bettergram.Mtproto

/-! ## What the server says about requests

How the connection handles the messages that are about what was sent. Slots
that are called in the thread of the session run within the same step.
-/

namespace Bettergram.Mtproto
open Foundation

inductive HandleResult where
  | success
  | ignored
  | restartConnection
  | resetSession
deriving DecidableEq, Repr

namespace SessionData

/-- A message with a bad time is handled only when one of the ids was sent. -/
def requestsFixTimeSalt (ids : List MsgId) (s : SessionData) : Bool :=
  ids.any fun id => s.wasSent id ≠ 0

def ignoredIf (badTime : Bool) : HandleResult := if badTime then .ignored else .success

def handleMsgsAck (ids : List MsgId) (badTime : Bool) (s : SessionData) :
    HandleResult × SessionData :=
  if ids = [] then (ignoredIf badTime, s)
  else if badTime ∧ ¬ s.requestsFixTimeSalt ids then (.ignored, s)
  else (.success, s.requestsAcked ids false)

/-- A ping is not sent again. -/
def resendAsync (now : ℤ) (msgId : MsgId) (forceContainer : Bool) (s : SessionData) : SessionData :=
  if msgId = s.pingMsgId then s else s.resend now msgId forceContainer

/-- The id behind one that is removed is not looked at. -/
def removePing (pingMsgId : MsgId) : List MsgId → List MsgId
  | [] => []
  | [id] => if id = pingMsgId then [] else [id]
  | id :: next :: ids =>
    if id = pingMsgId then next :: removePing pingMsgId ids
    else id :: removePing pingMsgId (next :: ids)

def resendManyAsync (now : ℤ) (msgIds : List MsgId) (forceContainer : Bool) (s : SessionData) :
    SessionData :=
  s.resendMany now (removePing s.pingMsgId msgIds) forceContainer

/-! ## States of messages -/

/-- One message of `handleMsgsStates`, with the ids to ack. -/
def handleMsgState (now : ℤ) (x : SessionData × List MsgId) (request : MsgId × UInt8) :
    SessionData × List MsgId :=
  let (s, acked) := x
  let (requestMsgId, state) := request
  let received := state &&& 0x07 = 0x04
  if s.haveSent.contains requestMsgId then
    if received then (s, acked ++ [requestMsgId]) else (s.resendAsync now requestMsgId true, acked)
  else if s.toResend.contains requestMsgId ∧ received then (s, acked ++ [requestMsgId])
  else (s, acked)

def handleMsgsStates (now : ℤ) (ids : List MsgId) (states : List UInt8) (s : SessionData) :
    SessionData × List MsgId :=
  if states.length < ids.length then (s, [])
  else (ids.zip states).foldl (handleMsgState now) (s, [])

/-- The ids in a request that was sent; an error is an exception. -/
def readRequestIds (requestBuffer : SecureRequestData) : Except ReadError (List MsgId) :=
  let request := if requestBuffer.type = mtpc_msgs_state_req then MTPMsgsStateReq else MTPMsgResendReq
  (request.read requestBuffer.body 0 request.cons).map (·.1)

/-- `toAck` is still empty when it is acked for the first time. -/
def handleMsgsStateInfo (now : ℤ) (reqMsgId : MsgId) (states : List UInt8) (badTime : Bool)
    (s : SessionData) : HandleResult × SessionData :=
  match s.haveSent[reqMsgId]? with
  | none => (ignoredIf badTime, s)
  | some ref =>
    let requestBuffer := s.requests ref
    let s := s.requestsAcked [] true
    if requestBuffer.body = [] then (.restartConnection, s)
    else
      match readRequestIds requestBuffer with
      | .error _ => (.restartConnection, s)
      | .ok ids =>
        let (s, toAck) := s.handleMsgsStates now ids states
        (.success, s.requestsAcked toAck false)

def handleMsgsAllInfo (now : ℤ) (ids : List MsgId) (states : List UInt8) (badTime : Bool)
    (s : SessionData) : HandleResult × SessionData :=
  if badTime then (.ignored, s)
  else
    let (s, toAck) := s.handleMsgsStates now ids states
    (.success, s.requestsAcked toAck false)

/-! ## Complaints -/

def handleBadMsgNotification (now : ℤ) (badMsgId : MsgId) (errorCode : ℤ) (badTime : Bool)
    (s : SessionData) : HandleResult × SessionData :=
  if errorCode ∈ [16, 17, 32, 33, 64] then
    if s.wasSent badMsgId = 0 then (ignoredIf badTime, s)
    else if errorCode ∈ [16, 17, 64] then (.success, s.resendAsync now badMsgId true)
    else (.resetSession, s)
  else
    let requestId := s.wasSent badMsgId
    (ignoredIf badTime,
      if requestId = 0 then s
      else { s with clearDelayed := s.clearDelayed ++ [(requestId, -errorCode)] })

/-- A bad salt for the ping needs no lookup. -/
def handleBadServerSalt (now : ℤ) (badMsgId : MsgId) (badTime : Bool) (s : SessionData) :
    HandleResult × SessionData :=
  if badMsgId ≠ s.pingMsgId ∧ s.wasSent badMsgId = 0 then (ignoredIf badTime, s)
  else (.success, s.resendAsync now badMsgId false)

def handleNewSession (now : ℤ) (firstMsgId : MsgId) (badTime : Bool) (s : SessionData) :
    HandleResult × SessionData :=
  if badTime ∧ ¬ s.requestsFixTimeSalt [firstMsgId] then (.ignored, s)
  else (.success, s.resendManyAsync now (s.requestMsgIds (· < firstMsgId)) true)

/-! ## Answers -/

variable (ungzip : List Int32 → List Int32)

/-- The words of an answer, unpacked; `none` is an answer that cannot be unpacked. -/
def readResponse : List Int32 → Option (List Int32)
  | [] => some []
  | typeId :: packed =>
    if typeId.toUInt32 = mtpc_gzip_packed then
      if ungzip packed = [] then none else some (ungzip packed)
    else some (typeId :: packed)

def handleRpcResult (reqMsgId : MsgId) (result : List Int32) (badTime : Bool) (s : SessionData) :
    HandleResult × SessionData :=
  if badTime ∧ ¬ s.requestsFixTimeSalt [reqMsgId] then (.ignored, s)
  else
    let s := s.requestsAcked [reqMsgId] true
    match readResponse ungzip result with
    | none => (.restartConnection, s)
    | some response =>
      let requestId := s.wasSent reqMsgId
      (.success,
        if requestId ≠ 0 ∧ requestId ≠ noRequest then
          { s with receivedResponses := s.receivedResponses.insert requestId response }
        else s)

/-! ## A new session -/

variable (clock : ℕ → MsgId)

/-- What `resetSession` has so far: `newId`, the requests that get a number, and the ids that
change. -/
structure Resetting where
  session : SessionData
  newId : MsgId
  setSeqNumbers : Std.TreeMap MsgId RequestRef := ∅
  replaces : Std.TreeMap MsgId MsgId := ∅

/-- A request with an id that is greater than the new one gets the new one. -/
def resetOne (x : Resetting) (msgId : MsgId) (request : RequestRef) : Resetting :=
  let s := x.session
  let d := s.requests request
  if d.isSentContainer ∨ d.msgId = 0 then x
  else if x.newId < msgId then
    let (newId, s) := s.unusedMsgId clock (s.usedCount + 1) x.newId
    { session := s.update request { d with msgId := newId }
      newId
      setSeqNumbers := x.setSeqNumbers.insert newId request
      replaces := x.replaces.insert msgId newId }
  else { x with setSeqNumbers := x.setSeqNumbers.insert msgId request }

/-- What was sent, and what is to be sent again and waits, with the ids they are kept under. -/
def requestsToReset (s : SessionData) : List (MsgId × RequestRef) :=
  s.haveSent.toList ++ s.toResend.toList.filterMap fun lost =>
    (s.toSend[lost.2]?).map fun request => (lost.1, request)

def renumber (s : SessionData) (request : RequestRef) : SessionData :=
  let (seqNo, s) := s.nextRequestSeqNumber ((s.requests request).seqNo &&& 1 = 1)
  s.update request { s.requests request with seqNo }

/-- Message ids and numbers are made anew; the number of messages starts from zero with the new
id of the session. -/
def resetSession (s : SessionData) : SessionData :=
  let (newId, s) := s.nextMsgId clock
  let x : Resetting := s.requestsToReset.foldl (fun x y => resetOne clock x y.1 y.2)
    { session := s, newId }
  let s := { x.session with messagesSent := 0 }
  let s := x.setSeqNumbers.values.foldl renumber s
  let s := x.replaces.toList.foldl (fun s ids => s.renameInMaps ids.1 ids.2) s
  let s := s.renameInContainers fun id => (x.replaces[id]?).getD id
  { s with ackRequestData := [], resendRequestData := [], stateRequest := ∅ }

/-- What a result does with the connection: a session that has to be reset is reset when the
connection is restarted. -/
def afterResult (x : HandleResult × SessionData) : SessionData :=
  if x.1 = .resetSession then x.2.resetSession clock else x.2

end SessionData

end Bettergram.Mtproto

/-! ## Runs of a session

What the application, the timers and the server do with a session, one step at
a time, and which requests are still to be answered.
-/

namespace Bettergram.Mtproto

inductive SessionEvent where
  | sendRequest (r : SessionData.NewRequest)
  /-- A request is sent anew after its answer was an error. -/
  | sendPrepared (requestId : RequestId)
  | tryToSend (m : SendMoment)
  | resend (now : ℤ) (msgId : MsgId) (forceContainer : Bool)
  | resendAll (now : ℤ)
  | cancel (requestId : RequestId)
  | checkRequestsByTimer (ms unixtime : ℤ)
  /-- The main thread takes the next of the callbacks to clear. -/
  | clearCallbacks
  /-- The main thread takes an answer; an error may leave the request to be sent anew. -/
  | execCallback (requestId : RequestId) (handled : Bool)
  | msgsAck (ids : List MsgId) (badTime : Bool)
  | msgsStateInfo (now : ℤ) (reqMsgId : MsgId) (states : List UInt8) (badTime : Bool)
  | msgsAllInfo (now : ℤ) (ids : List MsgId) (states : List UInt8) (badTime : Bool)
  | badMsgNotification (now : ℤ) (badMsgId : MsgId) (errorCode : ℤ) (badTime : Bool)
  | badServerSalt (now : ℤ) (badMsgId : MsgId) (badTime : Bool)
  | newSession (now : ℤ) (firstMsgId : MsgId) (badTime : Bool)
  | rpcResult (reqMsgId : MsgId) (result : List Int32) (badTime : Bool)

namespace SessionData

/-- The requests with callbacks that are neither answered nor cancelled. -/
abbrev Awaiting := RequestId → Option RequestRef

variable (clock : ℕ → MsgId) (ungzip : List Int32 → List Int32)

def takeClearDelayed (s : SessionData) : SessionData :=
  match s.clearDelayed with
  | [] => s
  | (requestId, _) :: rest =>
    (({ s with clearDelayed := rest } : SessionData).clearCallbacks requestId).unregisterRequest
      requestId

def takeResponse (requestId : RequestId) (handled : Bool) (s : SessionData) : SessionData :=
  let s := { s with receivedResponses := s.receivedResponses.erase requestId }
  if handled ∨ ¬ s.hasCallbacks requestId then
    (s.clearCallbacks requestId).unregisterRequest requestId
  else s

def sendStored (requestId : RequestId) (s : SessionData) : SessionData :=
  match s.requestMap requestId with
  | some request => s.sendPrepared request true
  | none => s

def step (s : SessionData) : SessionEvent → SessionData
  | .sendRequest r => s.sendRequest r
  | .sendPrepared requestId => s.sendStored requestId
  | .tryToSend m => (s.tryToSend clock m).2
  | .resend now msgId forceContainer => s.resend now msgId forceContainer
  | .resendAll now => s.resendAll now
  | .cancel requestId => s.cancel requestId
  | .checkRequestsByTimer ms unixtime => s.checkRequestsByTimer ms unixtime
  | .clearCallbacks => s.takeClearDelayed
  | .execCallback requestId handled => s.takeResponse requestId handled
  | .msgsAck ids badTime => (s.handleMsgsAck ids badTime).2
  | .msgsStateInfo now reqMsgId states badTime =>
    (s.handleMsgsStateInfo now reqMsgId states badTime).2
  | .msgsAllInfo now ids states badTime => (s.handleMsgsAllInfo now ids states badTime).2
  | .badMsgNotification now badMsgId errorCode badTime =>
    afterResult clock (s.handleBadMsgNotification now badMsgId errorCode badTime)
  | .badServerSalt now badMsgId badTime => (s.handleBadServerSalt now badMsgId badTime).2
  | .newSession now firstMsgId badTime => (s.handleNewSession now firstMsgId badTime).2
  | .rpcResult reqMsgId result badTime => (s.handleRpcResult ungzip reqMsgId result badTime).2

/-- A request awaits its answer from when it is made or sent anew, until there is one or its
callbacks are cleared. -/
def awaitingAfter (s : SessionData) (awaiting : Awaiting) : SessionEvent → Awaiting
  | .sendRequest r =>
    if r.callbacks then Function.update awaiting r.requestId (some s.nextRef) else awaiting
  | .sendPrepared requestId =>
    if s.hasCallbacks requestId then Function.update awaiting requestId (s.requestMap requestId)
    else awaiting
  | .cancel requestId | .execCallback requestId _ => Function.update awaiting requestId none
  | .clearCallbacks =>
    match s.clearDelayed with
    | [] => awaiting
    | (requestId, _) :: _ => Function.update awaiting requestId none
  | .rpcResult reqMsgId _ _ => Function.update awaiting (s.wasSent reqMsgId) none
  | _ => awaiting

/-! ## What the callers promise -/

/-- The ids that `msgid` gives differ from each other, and none is zero. -/
def NewIds (calls : ℕ) : Prop := ∀ i < calls, clock i ≠ 0 ∧ ∀ j < i, clock j ≠ clock i

instance (calls : ℕ) : Decidable (NewIds clock calls) :=
  inferInstanceAs (Decidable (∀ i < calls, _))

theorem NewIds.mono {clock : ℕ → MsgId} {calls calls' : ℕ} (h : NewIds clock calls')
    (hle : calls ≤ calls') : NewIds clock calls := fun i hi => h i (hi.trans_le hle)

/-- `GetNextRequestId` does not give the id of a request that was made before. -/
def IsNewRequestId (requestId : RequestId) (s : SessionData) : Prop :=
  requestId ≠ 0 ∧ requestId ≠ noRequest ∧
    ∀ ref < s.nextRef, (s.requests ref).requestId ≠ requestId

instance (requestId : RequestId) (s : SessionData) : Decidable (s.IsNewRequestId requestId) :=
  inferInstanceAs (Decidable (_ ∧ _ ∧ ∀ ref < s.nextRef, _))

/-- A request with callbacks is a call of the API and no service message; it has some words, no
more than a buffer can hold. -/
structure IsCall (body : List Int32) : Prop where
  notEmpty : body ≠ []
  type : (body.headD 0).toUInt32 ∉ mtpc_msgs_state_req :: SecureRequestData.serviceTypes
  length : body.length < 2 ^ 29

instance (body : List Int32) : Decidable (IsCall body) :=
  decidable_of_iff (body ≠ [] ∧ (body.headD 0).toUInt32 ∉
    mtpc_msgs_state_req :: SecureRequestData.serviceTypes ∧ body.length < 2 ^ 29)
    ⟨fun ⟨hne, htype, hlength⟩ => ⟨hne, htype, hlength⟩,
      fun h => ⟨h.notEmpty, h.type, h.length⟩⟩

/-- Request ids are new, the clock shows a time after the start, and a request that is sent anew was
answered. -/
def Allowed (s : SessionData) : SessionEvent → Prop
  | .sendRequest r => s.IsNewRequestId r.requestId ∧ 0 < r.now ∧ (r.callbacks → IsCall r.body)
  | .sendPrepared requestId => ∀ ref, s.requestMap requestId = some ref →
      (∀ msgId : MsgId, s.haveSent[msgId]? ≠ some ref) ∧
      (∀ msgId : MsgId, s.toResend[msgId]? ≠ some requestId) ∧
      s.toSend[requestId]? = none
  | .tryToSend m => s.IsNewRequestId m.stateRequestId ∧ 0 < m.now
  | .resend now _ _ | .resendAll now => 0 < now
  | _ => True

/-- A request that is no container and has an id gets a new number. -/
def isReset (s : SessionData) (request : RequestRef) : Bool :=
  !(s.requests request).isSentContainer && (s.requests request).msgId ≠ 0

/-- When the session is reset, no more than one request has an id above the next one of the
clock. -/
def OneIdAbove (s : SessionData) : Prop :=
  s.requestsToReset.countP (fun x => s.isReset x.2 && clock s.msgIdCalls < x.1) ≤ 1

instance (s : SessionData) : Decidable (s.OneIdAbove clock) :=
  inferInstanceAs (Decidable (_ ≤ _))

end SessionData

end Bettergram.Mtproto
