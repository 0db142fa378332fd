import Bettergram.Mtproto.InstancePlaces

/-! # Carrying an authorization over

The first request that is not authorized in a data center starts an export in
the main one; its answer starts an import there, and the answer to that sends
all the requests that wait. The events are those of the session and the callers.
-/

namespace Bettergram.Mtproto.Instance
open Foundation

/-! ## The callbacks of the two requests -/

def exportDone (requestId : RequestId) (s : Instance) : Option Instance :=
  match s.authExportRequests[requestId]? with
  | none => some s
  | some target =>
    (s.send (some .importAuth) target 0).map fun (s, _) =>
      { s with authExportRequests := s.authExportRequests.erase requestId }

/-- The waiters are cleared. -/
def exportFail (requestId : RequestId) (error : RPCError) (s : Instance) : Instance × Bool :=
  if error.isDefaultHandledError then (s, false)
  else match s.authExportRequests[requestId]? with
    | some target => (s.setWaiters (bareDcId target) [], true)
    | none => (s, true)

/-- Nothing is done with the waiters. -/
def importFail (error : RPCError) : Bool := !error.isDefaultHandledError

/-- `changeRequestByDc` for a request that was registered for `dc`. -/
def changedDc (newdc : DcId) (dc : ShiftedDcId) : ShiftedDcId :=
  if dc < 0 then -newdc else shiftDcId newdc (getDcIdShift dc)

/-- A waiter that is not known any more is left out. -/
def resendWaiter (newdc : DcId) (requestId : RequestId) (s : Instance) : Option Instance :=
  if requestId ∈ s.requestMap then
    match s.requestsByDc[requestId]? with
    | none => some s
    | some dc =>
      let shiftedDcId := changedDc newdc dc
      let s := s.registerRequest requestId shiftedDcId
      let s := if shiftedDcId < 0 then s.setMainDcId newdc else s
      s.sendTo shiftedDcId requestId
  else some s

/-- The loop of `importDone`. -/
def resendWaiters (newdc : DcId) : List RequestId → Instance → Option Instance
  | [], s => some s
  | waiter :: l, s => (s.resendWaiter newdc waiter).bind (resendWaiters newdc l)

def importDone (requestId : RequestId) (s : Instance) : Option Instance :=
  match s.requestsByDc[requestId]? with
  | none => some s
  | some shiftedDcId =>
    let newdc := bareDcId shiftedDcId
    (resendWaiters newdc (s.waiters newdc) s).map (setWaiters newdc [])

/-! ## The answer to a request -/

/-- `onDone` -/
def done (handler : ResponseHandler) (requestId : RequestId) (s : Instance) : Option Instance :=
  match handler with
  | .exportAuth => s.exportDone requestId
  | .importAuth => s.importDone requestId
  | .caller _ => some s

/-- `onFail` -/
def fail (handler : ResponseHandler) (requestId : RequestId) (error : RPCError) (s : Instance) :
    Instance × Bool :=
  match handler with
  | .exportAuth => s.exportFail requestId error
  | .importAuth => (s, importFail error)
  | .caller onFail => (s, onFail error)

/-- The error is handled, or the caller is told. -/
def handleDefault (requestId : RequestId) (handler : ResponseHandler) (error : RPCError)
    (now later : Time) (s : Instance) : Option (Instance × Bool) :=
  (s.onErrorDefault requestId error now later).map fun (s, handled) =>
    if handled then (s, false) else ((s.fail handler requestId error).1, true)

/-- Whether the data of the request is to be cleaned up. -/
def rpcErrorOccured (requestId : RequestId) (handler : ResponseHandler) (error : RPCError)
    (now later : Time) (s : Instance) : Option (Instance × Bool) :=
  let (s, handled) := if error.isDefaultHandledError then s.fail handler requestId error
    else (s, false)
  if handled then some (s, true) else s.handleDefault requestId handler error now later

inductive Response
  | result
  | error (error : RPCError)

def execCallback (requestId : RequestId) (response : Response) (now later : Time) (s : Instance) :
    Option Instance :=
  match s.parserMap[requestId]? with
  | none => some (s.unregisterRequest requestId)
  | some handler =>
    let s := { s with parserMap := s.parserMap.erase requestId }
    match response with
    | .result => (s.done handler requestId).map (·.unregisterRequest requestId)
    | .error error =>
      (s.rpcErrorOccured requestId handler error now later).map fun (s, clean) =>
        if clean then s.unregisterRequest requestId
        else { s with parserMap := s.parserMap.insertIfNew requestId handler }

/-! ## Events -/

/-- A session sends a request of its queue. -/
def sendQueued (session : ShiftedDcId) (requestId : RequestId) (s : Instance) : Instance :=
  match s.sessions[session]? with
  | none => s
  | some queue =>
    if requestId ∈ queue.toSend then
      { s with
        sessions := s.sessions.insert session
          { toSend := queue.toSend.erase requestId
            haveSent := queue.haveSent.insert requestId } }
    else s

/-- The session forgets a request it sent. -/
def forget (session : ShiftedDcId) (requestId : RequestId) (s : Instance) : Instance :=
  match s.sessions[session]? with
  | none => s
  | some queue =>
    { s with
      sessions := s.sessions.insert session
        { queue with haveSent := queue.haveSent.erase requestId } }

/-- `Session::cancel` -/
def cancelIn (session : ShiftedDcId) (requestId : RequestId) (s : Instance) : Instance :=
  let queue := (s.sessions[session]?).getD {}
  { s with
    sessions := s.sessions.insert session
      { toSend := queue.toSend.erase requestId
        haveSent := queue.haveSent.erase requestId } }

def cancel (requestId : RequestId) (s : Instance) : Option Instance :=
  if requestId = 0 then some s
  else
    let unregistered := s.unregisterRequest requestId
    let canceled : Option Instance := match s.requestsByDc[requestId]? with
      | none => some unregistered
      | some shiftedDcId =>
        (unregistered.getSession shiftedDcId.abs).map fun x => x.1.cancelIn x.2 requestId
    canceled.map fun s => { s with parserMap := s.parserMap.erase requestId }

inductive Event
  | request (onFail : Option (RPCError → Bool)) (shiftedDcId : ShiftedDcId) (after : RequestId)
  | sends (session : ShiftedDcId) (requestId : RequestId)
  | answered (session : ShiftedDcId) (requestId : RequestId) (response : Response)
      (now later : Time)
  | timer (now : Time)
  | cancel (requestId : RequestId)

def step (s : Instance) : Event → Option Instance
  | .request onFail shiftedDcId after =>
    (s.send (onFail.map .caller) shiftedDcId after).map Prod.fst
  | .sends session requestId => some (s.sendQueued session requestId)
  | .answered session requestId response now later =>
    (s.forget session requestId).execCallback requestId response now later
  | .timer now => s.checkDelayedRequests now
  | .cancel requestId => s.cancel requestId

/-! ## Steps that hand the waiters on -/

/-- An export or an import. -/
def IsAuth (requestId : RequestId) (s : Instance) : Prop :=
  s.parserMap[requestId]? = some .exportAuth ∨ s.parserMap[requestId]? = some .importAuth

instance (requestId : RequestId) (s : Instance) : Decidable (s.IsAuth requestId) :=
  match h : s.parserMap[requestId]? with
  | none => isFalse (by simp [IsAuth, h])
  | some .exportAuth => isTrue (.inl h)
  | some .importAuth => isTrue (.inr h)
  | some (.caller _) => isFalse (by simp [IsAuth, h])

/-- The error of an export or an import that has it sent again. -/
def SentAgain (requestId : RequestId) (error : RPCError) (s : Instance) : Prop :=
  error.isInternal ∨ error.floodWait?.isSome ∨
    (error.type = "CONNECTION_NOT_INITED" ∨ error.type = "CONNECTION_LAYER_INVALID") ∧
      error.code ≠ 401 ∧ s.dcWithShift requestId ≠ 0

/-- No waiter takes the main dc along in the loop of `importDone`. -/
def KeepsMainDc (newdc : DcId) : List RequestId → Instance → Prop
  | [], _ => True
  | waiter :: l, s =>
    let shiftedDcId := changedDc newdc (s.dcWithShift waiter)
    if s.Registered waiter then
      ¬shiftedDcId < 0 ∧ KeepsMainDc newdc l (s.registerRequest waiter shiftedDcId)
    else KeepsMainDc newdc l s

/-- An error does not move the main dc. -/
def StaysInDc (requestId : RequestId) (error : RPCError) (s : Instance) : Prop :=
  error.migrateDc? = none ∨ ¬s.dcWithShift requestId < 0

/-- The answers an export or an import may not get, the moves of the main dc, and the requests that
are not the caller's to cancel. -/
def HandsOn (s : Instance) : Event → Prop
  | .answered _ requestId (.error error) _ _ =>
    (s.IsAuth requestId → s.SentAgain requestId error) ∧
      (¬s.IsAuth requestId → s.StaysInDc requestId error)
  | .answered _ requestId .result _ _ =>
    s.parserMap[requestId]? = some .importAuth →
      let newdc := bareDcId (s.dcWithShift requestId)
      KeepsMainDc newdc (s.waiters newdc) s
  | .cancel requestId => ¬s.IsAuth requestId
  | _ => True

/-- The next id is not in use. -/
structure NextIsFresh (s : Instance) : Prop where
  notZero : s.nextRequestId ≠ 0
  handler : s.nextRequestId ∉ s.parserMap
  exports : s.nextRequestId ∉ s.authExportRequests
  notWaiting : ∀ dcId, s.nextRequestId ∉ s.waiters dcId

end Bettergram.Mtproto.Instance
