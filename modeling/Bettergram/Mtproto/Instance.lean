import Bettergram.Mtproto.DcOptions
import Bettergram.Mtproto.SessionData
import Mathlib.Data.Option.Basic

/-! # The requests of an instance

An error of a request may be handled without its caller: the request moves to
another data center, waits for a time or for an authorization, or is sent again.
A failed assertion is `none`.
-/

namespace Bettergram.Mtproto
open Foundation

abbrev ShiftedDcId := Int32

/-- `crl::time`. -/
abbrev Time := ℤ

def shiftDcId (dcId : DcId) (value : Int32) : ShiftedDcId := dcId + kDcShift * value

def getDcIdShift (shiftedDcId : ShiftedDcId) : Int32 := shiftedDcId / kDcShift

/-- `Instance::Config::kNoneMainDc` -/
def kNoneMainDc : DcId := -1

/-! ## Errors -/

/-- The constructor gives one type to all errors of the server itself. -/
structure RPCError where
  code : Int32
  type : String
  internal : code < 0 ∨ 500 ≤ code → type = "INTERNAL_SERVER_ERROR"

namespace RPCError

/-- `(\d+)$` -/
def number? (chars : List Char) : Option ℕ :=
  if chars ≠ [] ∧ chars.all Char.isDigit then
    some (chars.foldl (fun n c => 10 * n + (c.toNat - '0'.toNat)) 0)
  else none

/-- `QString::toInt`: what does not fit is zero. -/
def toInt (n : ℕ) : Int32 := if n < 2 ^ 31 then Int32.ofNat n else 0

/-- The number behind a text the type starts with. -/
def captured? (start : String) (error : RPCError) : Option Int32 :=
  ((error.type.toList.dropPrefix? start.toList).bind number?).map toInt

/-- `^(FILE|PHONE|NETWORK|USER)_MIGRATE_(\d+)$` -/
def migrateDc? (error : RPCError) : Option Int32 :=
  ["FILE_MIGRATE_", "PHONE_MIGRATE_", "NETWORK_MIGRATE_", "USER_MIGRATE_"].findSome? error.captured?

/-- `^FLOOD_WAIT_(\d+)$` -/
def floodWait? (error : RPCError) : Option Int32 := error.captured? "FLOOD_WAIT_"

def isInternal (error : RPCError) : Bool := error.code < 0 || 500 ≤ error.code

def isFloodError (error : RPCError) : Bool := "FLOOD_WAIT_".toList.isPrefixOf error.type.toList

def isTemporaryError (error : RPCError) : Bool := error.isInternal || error.isFloodError

def isDefaultHandledError (error : RPCError) : Bool := error.isTemporaryError

def badGuestDc (error : RPCError) : Bool := error.code = 400 && error.type = "FILE_ID_INVALID"

end RPCError

/-! ## The state -/

/-- What is read of a stored request: `after` points to a request and is asked for its id only. -/
structure StoredRequest where
  after : Option RequestId := none
  needsLayer : Bool := false
deriving DecidableEq, Repr

/-- The callbacks of a request: those of the two requests an authorization is carried over with,
or a caller's. -/
inductive ResponseHandler
  | exportAuth
  | importAuth
  | caller (onFail : RPCError → Bool)

/-- The requests given to a session and not answered: those in the queue and those sent. -/
structure SessionQueue where
  toSend : Std.TreeSet RequestId := ∅
  haveSent : Std.TreeSet RequestId := ∅

/-- `mainSession` is the data center of the main session, kept in `sessions` with the others. -/
structure Instance where
  mainDcId : DcId
  mainSession : Option ShiftedDcId
  hasAuthorization : Bool := false
  sessions : Std.TreeMap ShiftedDcId SessionQueue := ∅
  /-- Holds `dcWithShift` for a request to this dc or `-dc` for a request to the main dc. -/
  requestsByDc : Std.TreeMap RequestId ShiftedDcId := ∅
  /-- Holds the target `dcWithShift` of an export request. -/
  authExportRequests : Std.TreeMap RequestId ShiftedDcId := ∅
  parserMap : Std.TreeMap RequestId ResponseHandler := ∅
  requestMap : Std.TreeMap RequestId StoredRequest := ∅
  delayedRequests : List (RequestId × Time) := []
  requestsDelays : Std.TreeMap RequestId Int32 := ∅
  badGuestDcRequests : Std.TreeSet RequestId := ∅
  authWaiters : Std.TreeMap DcId (List RequestId) := ∅
  globalAtomicRequestId : RequestId := 0

namespace Instance

def waiters (dcId : DcId) (s : Instance) : List RequestId := (s.authWaiters[dcId]?).getD []

def setWaiters (dcId : DcId) (l : List RequestId) (s : Instance) : Instance :=
  { s with authWaiters := s.authWaiters.insert dcId l }

/-- A request of a file that is not tried again without an authorization. -/
def markGuest (requestId : RequestId) (badGuestDc : Bool) (s : Instance) : Instance :=
  if badGuestDc then { s with badGuestDcRequests := s.badGuestDcRequests.insert requestId } else s

/-- The dc of a request, zero when it has none. -/
def dcWithShift (requestId : RequestId) (s : Instance) : ShiftedDcId :=
  (s.requestsByDc[requestId]?).getD 0

/-! ## Sessions -/

/-- Makes the session when there is none. -/
def getSession (shiftedDcId : ShiftedDcId) (s : Instance) : Option (Instance × ShiftedDcId) :=
  if shiftedDcId = 0 then s.mainSession.map (s, ·)
  else if bareDcId shiftedDcId = 0 then
    s.mainSession.map fun main =>
      let shiftedDcId := shiftedDcId + bareDcId main
      ({ s with sessions := s.sessions.insertIfNew shiftedDcId {} }, shiftedDcId)
  else some ({ s with sessions := s.sessions.insertIfNew shiftedDcId {} }, shiftedDcId)

def sendPrepared (session : ShiftedDcId) (requestId : RequestId) (s : Instance) : Instance :=
  let queue := (s.sessions[session]?).getD {}
  { s with
    sessions := s.sessions.insert session { queue with toSend := queue.toSend.insert requestId } }

/-- `getSession(dc)->sendPrepared(request)` -/
def sendTo (shiftedDcId : ShiftedDcId) (requestId : RequestId) (s : Instance) : Option Instance :=
  (s.getSession shiftedDcId).map fun (s, session) => s.sendPrepared session requestId

/-- What was in the session is gone with it. -/
def killSession (shiftedDcId : ShiftedDcId) (s : Instance) : Instance :=
  let killedMain := shiftedDcId ∈ s.sessions ∧ s.mainSession = some shiftedDcId
  let s := { s with sessions := s.sessions.erase shiftedDcId }
  if killedMain then
    { s with
      sessions := (s.sessions.erase s.mainDcId).insert s.mainDcId {}
      mainSession := some s.mainDcId }
  else s

def setMainDcId (mainDcId : DcId) (s : Instance) : Instance :=
  match s.mainSession with
  | none => s
  | some oldMainDcId =>
    let s := { s with mainDcId := mainDcId }
    if oldMainDcId ≠ mainDcId then s.killSession oldMainDcId else s

/-! ## New requests -/

/-- `std::numeric_limits<int>::max() / 2` -/
def kLastRequestId : RequestId := 1073741823

def nextRequestId (s : Instance) : RequestId := s.globalAtomicRequestId + 1

def getNextRequestId (s : Instance) : RequestId × Instance :=
  let result := s.nextRequestId
  (result, { s with globalAtomicRequestId := if result = kLastRequestId then 0 else result })

def registerRequest (requestId : RequestId) (shiftedDcId : ShiftedDcId) (s : Instance) : Instance :=
  { s with requestsByDc := s.requestsByDc.insert requestId shiftedDcId }

def unregisterRequest (requestId : RequestId) (s : Instance) : Instance :=
  { s with
    requestsDelays := s.requestsDelays.erase requestId
    requestMap := s.requestMap.erase requestId
    requestsByDc := s.requestsByDc.erase requestId }

/-- `getRequest(afterRequestId)`, asked for its id. -/
def getAfter (afterRequestId : RequestId) (s : Instance) : Option RequestId :=
  if afterRequestId ≠ 0 ∧ afterRequestId ∈ s.requestMap then some afterRequestId else none

/-- A request without callbacks is stored all the same. -/
def storeRequest (requestId : RequestId) (request : StoredRequest)
    (callbacks : Option ResponseHandler) (s : Instance) : Instance :=
  { s with
    parserMap := callbacks.elim s.parserMap (s.parserMap.insertIfNew requestId)
    requestMap := s.requestMap.insertIfNew requestId request }

/-- Stores, registers and queues the request. -/
def sendRequest (requestId : RequestId) (callbacks : Option ResponseHandler)
    (shiftedDcId : ShiftedDcId) (needsLayer : Bool) (afterRequestId : RequestId) (s : Instance) :
    Option Instance :=
  (s.getSession shiftedDcId).map fun (s, session) =>
    let request : StoredRequest := { after := s.getAfter afterRequestId, needsLayer := needsLayer }
    let s := s.storeRequest requestId request callbacks
    let s := s.registerRequest requestId (if shiftedDcId = 0 then -session else session)
    s.sendPrepared session requestId

def send (callbacks : Option ResponseHandler) (shiftedDcId : ShiftedDcId)
    (afterRequestId : RequestId) (s : Instance) : Option (Instance × RequestId) :=
  let (requestId, s) := s.getNextRequestId
  (s.sendRequest requestId callbacks shiftedDcId true afterRequestId).map (·, requestId)

/-! ## Delayed requests -/

/-- One that is not known any more is dropped. -/
def resendDelayed (requestId : RequestId) (s : Instance) : Option Instance :=
  match s.requestsByDc[requestId]? with
  | none => some s
  | some shiftedDcId =>
    if requestId ∈ s.requestMap then s.sendTo shiftedDcId.abs requestId else some s

/-- The loop of `checkDelayedRequests` over what is left of the queue. -/
def checkDelayed (now : Time) : List (RequestId × Time) → Instance → Option Instance
  | [], s => some { s with delayedRequests := [] }
  | (requestId, sendAt) :: l, s =>
    if sendAt ≤ now then (s.resendDelayed requestId).bind (checkDelayed now l)
    else some { s with delayedRequests := (requestId, sendAt) :: l }

def checkDelayedRequests (now : Time) (s : Instance) : Option Instance :=
  checkDelayed now s.delayedRequests s

/-- The queue with a request put in front of the first one that is due later; `none` when the
request is met before. -/
def insertDelayed (requestId : RequestId) (sendAt : Time) :
    List (RequestId × Time) → Option (List (RequestId × Time))
  | [] => some [(requestId, sendAt)]
  | e :: l =>
    if e.1 = requestId then none
    else if sendAt < e.2 then some ((requestId, sendAt) :: e :: l)
    else (insertDelayed requestId sendAt l).map (e :: ·)

/-- The queue with a request put in front of another, to be sent with it. When one of the two is
not met it does not change; `none` when the request is met before. -/
def insertBefore (requestId afterRequestId : RequestId) :
    List (RequestId × Time) → Option (List (RequestId × Time))
  | [] => some []
  | e :: l =>
    if e.1 = requestId then none
    else if e.1 = afterRequestId then some ((requestId, e.2) :: e :: l)
    else (insertBefore requestId afterRequestId l).map (e :: ·)

/-! ## Errors handled without the caller -/

/-- The request is registered for another dc and sent there. -/
def moveTo (requestId : RequestId) (newdcWithShift registered : ShiftedDcId) (s : Instance) :
    Option (Instance × Bool) :=
  if requestId ∈ s.requestMap then
    (s.getSession newdcWithShift).map fun (s, session) =>
      ((s.registerRequest requestId registered).sendPrepared session requestId, true)
  else some (s, false)

/-- `_MIGRATE_`: a request to the main dc takes the main dc with it. -/
def migrate (requestId : RequestId) (newdc : Int32) (s : Instance) : Option (Instance × Bool) :=
  let dc := s.dcWithShift requestId
  if requestId = 0 ∨ dc = 0 ∨ newdc = 0 then some (s, false)
  else if dc < 0 then (s.setMainDcId newdc).moveTo requestId newdc (-newdc)
  else
    let newdcWithShift := shiftDcId newdc (getDcIdShift dc)
    s.moveTo requestId newdcWithShift newdcWithShift

/-- The seconds to wait: an error of the server doubles the wait of the one before. -/
def delaySecs (requestId : RequestId) (error : RPCError) (s : Instance) : Int32 × Instance :=
  if error.isInternal then
    match s.requestsDelays[requestId]? with
    | some secs =>
      if 60 < secs then (secs, s)
      else (secs * 2, { s with requestsDelays := s.requestsDelays.insert requestId (secs * 2) })
    | none => (1, { s with requestsDelays := s.requestsDelays.insert requestId 1 })
  else (error.floodWait?.getD 0, s)

/-- `FLOOD_WAIT_` and errors of the server: the request waits. `later` is the second reading of the
clock. -/
def delay (requestId : RequestId) (error : RPCError) (now later : Time) (s : Instance) :
    Option (Instance × Bool) :=
  if requestId = 0 then some (s, false)
  else
    let (secs, s) := s.delaySecs requestId error
    let sendAt := now + (secs * 1000).toInt + 10
    match insertDelayed requestId sendAt s.delayedRequests with
    | none => some (s, true)
    | some l =>
      ({ s with delayedRequests := l }.checkDelayedRequests later).map (·, true)

/-- The first to wait for the authorization in a dc asks for it. -/
def startExport (newdc : DcId) (target : ShiftedDcId) (s : Instance) : Option Instance :=
  if s.waiters newdc = [] then
    (s.send (some .exportAuth) 0 0).map fun (s, exportRequestId) =>
      { s with authExportRequests := s.authExportRequests.insertIfNew exportRequestId target }
  else some s

/-- `AUTH_KEY_UNREGISTERED` and the like: the request waits for the authorization. -/
def waitForAuth (requestId : RequestId) (error : RPCError) (s : Instance) :
    Option (Instance × Bool) :=
  let target := (s.dcWithShift requestId).abs
  let newdc := bareDcId target
  if newdc = 0 then some (s, false)
  else if s.mainDcId = kNoneMainDc then none
  else if newdc = s.mainDcId ∨ !s.hasAuthorization then some (s, false)
  else
    (s.startExport newdc target).map fun s =>
      let s := s.setWaiters newdc (s.waiters newdc ++ [requestId])
      (s.markGuest requestId error.badGuestDc, true)

/-- The request is sent again with the layer in front of it. -/
def resendWithLayer (requestId : RequestId) (request : StoredRequest) (dc : ShiftedDcId)
    (s : Instance) : Option (Instance × Bool) :=
  (s.getSession dc.abs).map fun (s, session) =>
    let request := { request with needsLayer := true }
    let s := { s with requestMap := s.requestMap.insert requestId request }
    (s.sendPrepared session requestId, true)

/-- `CONNECTION_NOT_INITED`, `CONNECTION_LAYER_INVALID` -/
def initAgain (requestId : RequestId) (s : Instance) : Option (Instance × Bool) :=
  match s.requestMap[requestId]? with
  | none => some (s, false)
  | some request =>
    let dc := s.dcWithShift requestId
    if dc = 0 then some (s, false) else s.resendWithLayer requestId request dc

/-- The request waits for what the one it is to come after waits for. -/
def waitWith (requestId after : RequestId) (newdc : DcId) (later : Time) (s : Instance) :
    Option Instance :=
  if after ∈ s.waiters newdc then
    let s := if requestId ∈ s.waiters newdc then s
      else s.setWaiters newdc (s.waiters newdc ++ [requestId])
    some (s.markGuest requestId (s.badGuestDcRequests.contains after))
  else
    match insertBefore requestId after s.delayedRequests with
    | none => some s
    | some l => { s with delayedRequests := l }.checkDelayedRequests later

/-- `MSG_WAIT_FAILED` -/
def waitFailed (requestId : RequestId) (later : Time) (s : Instance) : Option (Instance × Bool) :=
  match s.requestMap[requestId]? with
  | none => some (s, false)
  | some request =>
    match request.after with
    | none => some (s, false)
    | some after =>
      match s.requestsByDc[requestId]?, s.requestsByDc[after]? with
      | some dc, some afterDc =>
        let request := { request with after := if dc ≠ afterDc then none else some after }
        if dc = 0 then some ({ s with requestMap := s.requestMap.insert requestId request }, false)
        else if dc ≠ afterDc then s.resendWithLayer requestId request dc
        else (s.waitWith requestId after (bareDcId dc.abs) later).map (·, true)
      | _, _ => some (s, false)

/-- An unknown file in another dc is tried once more with a new authorization. -/
def needsAuth (requestId : RequestId) (error : RPCError) (s : Instance) : Bool :=
  error.code = 401 || error.badGuestDc && !s.badGuestDcRequests.contains requestId

/-- Whether the error was handled and the request lives on. -/
def onErrorDefault (requestId : RequestId) (error : RPCError) (now later : Time) (s : Instance) :
    Option (Instance × Bool) :=
  match error.migrateDc? with
  | some newdc => s.migrate requestId newdc
  | none =>
    if error.isInternal || error.floodWait?.isSome then s.delay requestId error now later
    else if s.needsAuth requestId error then s.waitForAuth requestId error
    else if error.type = "CONNECTION_NOT_INITED" ∨ error.type = "CONNECTION_LAYER_INVALID" then
      s.initAgain requestId
    else if error.type = "MSG_WAIT_FAILED" then s.waitFailed requestId later
    else if error.badGuestDc then
      some ({ s with badGuestDcRequests := s.badGuestDcRequests.erase requestId }, false)
    else some (s, false)

end Instance

end Bettergram.Mtproto
