import Bettergram.Foundation.Overwrite
import Bettergram.Foundation.TreeMaps
import Bettergram.Mtproto.SessionData

/-! # Sending what waits

One request alone goes out as it is. More of them, with what the connection has
to say itself, go out in one container, and the ids in it are kept.
-/

namespace Bettergram.Mtproto
open Foundation

def kPingDelayDisconnect : Int32 := 60

/-- What `tryToSend` finds: the state of the connection and its options, the ping to send (or
zero), the clock, `GetNextRequestId()` for a request of its own, what `initWrapper` writes, and
what the padding is made of. -/
structure SendMoment where
  connected : Bool
  needsLayer : Bool
  mainSession : Bool
  pingIdToSend : UInt64
  usingHttpWait : Bool
  now : ℤ
  stateRequestId : RequestId
  currentLayer : Int32
  initWrapper : List Int32
  extraPadding : UInt32
  random : ℕ → Int32

namespace SessionData

variable (clock : ℕ → MsgId)

/-- `msgid()`: each call gives the next id of the clock. -/
def nextMsgId (s : SessionData) : MsgId × SessionData :=
  (clock s.msgIdCalls, { s with msgIdCalls := s.msgIdCalls + 1 })

def prepareToSend (request : RequestRef) (currentLastId : MsgId) (s : SessionData) :
    MsgId × SessionData :=
  let d := s.requests request
  if d.body = [] then (0, s)
  else if d.msgId ≠ 0 then (d.msgId, { s with toResend := s.toResend.erase d.msgId })
  else
    let (seqNo, s) := s.nextRequestSeqNumber d.needAck
    (currentLastId, s.update request { d with msgId := currentLastId, seqNo })

def isUsed (msgId : MsgId) (s : SessionData) : Bool :=
  s.toResend.contains msgId || s.wereAcked.contains msgId || s.haveSent.contains msgId

/-- The loop for an id that is not in the maps; each round passes one that is. -/
def unusedMsgId : ℕ → MsgId → SessionData → MsgId × SessionData
  | 0, newId, s => (newId, s)
  | fuel + 1, newId, s =>
    if s.isUsed newId then
      let (m, s) := s.nextMsgId clock
      if m ≤ newId then (newId, s) else unusedMsgId fuel m s
    else (newId, s)

def usedCount (s : SessionData) : ℕ := s.toResend.size + s.wereAcked.size + s.haveSent.size

/-- Puts other ids in the place of those in the containers that were sent. -/
def renameInContainers (f : MsgId → MsgId) (s : SessionData) : SessionData :=
  { s with requests := fun ref =>
      if s.haveSent.values.contains ref ∧ (s.requests ref).isSentContainer then
        { s.requests ref with body := mapLongs f (s.requests ref).body }
      else s.requests ref }

def renameInMaps (oldMsgId newId : MsgId) (s : SessionData) : SessionData :=
  { s with
    toResend := rename s.toResend oldMsgId newId
    wereAcked := rename s.wereAcked oldMsgId newId
    haveSent := rename s.haveSent oldMsgId newId }

def replaceMsgId (request : RequestRef) (newId : MsgId) (s : SessionData) : MsgId × SessionData :=
  let d := s.requests request
  if d.body = [] then (0, s)
  else if d.msgId = newId then (newId, s)
  else if d.msgId ≠ 0 then
    let (newId, s) := s.unusedMsgId clock (s.usedCount + 1) newId
    let s := (s.renameInMaps d.msgId newId).renameInContainers
      fun id => if id = d.msgId then newId else id
    (newId, s.update request { s.requests request with msgId := newId })
  else
    let (seqNo, s) := s.nextRequestSeqNumber d.needAck
    (newId, s.update request { d with msgId := newId, seqNo })

/-! ## Packing a container -/

/-- `toSendRequest` is the buffer from its message id on; `ids` is what was put behind
`haveSentArr`. -/
structure Packing where
  session : SessionData
  toSendRequest : List Int32
  bigMsgId : MsgId
  ids : List MsgId

namespace Packing

/-- The next message gets its id. -/
def placeId (request : RequestRef) (p : Packing) : MsgId × Packing :=
  let (msgId, s) := p.session.prepareToSend request p.bigMsgId
  let (msgId, s) := if p.bigMsgId < msgId then s.replaceMsgId clock request p.bigMsgId else (msgId, s)
  let (bigMsgId, s) := if p.bigMsgId ≤ msgId then s.nextMsgId clock else (p.bigMsgId, s)
  (msgId, { p with session := s, bigMsgId, ids := p.ids ++ [msgId] })

/-- The words of a message are appended as they are. -/
def copy (request : RequestRef) (p : Packing) : Packing :=
  let d := p.session.requests request
  { p with toSendRequest := p.toSendRequest ++ d.words.take d.messageSize.toNat }

def placeToContainer (request : RequestRef) (p : Packing) : MsgId × Packing :=
  let (msgId, p) := p.placeId clock request
  (msgId, p.copy request)

end Packing

/-- `buffer[i] += d`. -/
def addAt (i : ℕ) (d : Int32) (buffer : List Int32) : List Int32 := buffer.modify i (· + d)

/-- `target` is a buffer from its message id on, so that its third word is its length. -/
def wrapInvokeAfter (target : List Int32) (d : SecureRequestData) (skipBeforeRequest : ℕ)
    (s : SessionData) : List Int32 :=
  let afterId := (d.after.map fun after => (s.requests after).msgId).getD 0
  let head := d.words.take 4
  let inner := d.body.take (d.innerLength >>> 2).toNat
  let skipped := List.replicate skipBeforeRequest 0
  if afterId = 0 ∨ afterId ∉ s.haveSent then target ++ head ++ skipped ++ inner
  else
    let result := target ++ head ++ skipped ++
      writeLong afterId [mtpc_invokeAfterMsg.toInt32] ++ inner
    let result := addAt (target.length + 3) 12 result
    if target.length + 3 ≠ 3 then addAt 3 12 result else result

end SessionData

namespace SendMoment

def prependOnly (m : SendMoment) : Bool := !m.connected

def initSerialized (m : SendMoment) : List Int32 :=
  [mtpc_invokeWithLayer.toInt32, m.currentLayer] ++ m.initWrapper

def initSizeInInts (m : SendMoment) : ℕ := m.initSerialized.length

def initSize (m : SendMoment) : Int32 := Int32.ofNat (4 * m.initSizeInInts)

end SendMoment

namespace SessionData

/-- The wrapper goes in front of the body of the message that starts at `start`. -/
def putInit (m : SendMoment) (start : ℕ) (target : List Int32) : List Int32 :=
  addAt (start + 3) m.initSize (overwrite target (start + 4) m.initSerialized)

/-- A message with its wrappers behind the others. -/
def placeWrapped (m : SendMoment) (d : SecureRequestData) (target : List Int32)
    (s : SessionData) : List Int32 :=
  let reqNeedsLayer := m.needsLayer && d.needsLayer
  if d.after.isSome then
    let result := s.wrapInvokeAfter target d (if reqNeedsLayer then m.initSizeInInts else 0)
    if reqNeedsLayer then putInit m target.length result else result
  else if reqNeedsLayer then
    addAt (target.length + 3) m.initSize (target ++ d.words.take 4 ++ m.initSerialized ++
      d.body.take (d.innerLength >>> 2).toNat)
  else target ++ d.words.take d.messageSize.toNat

variable (clock : ℕ → MsgId) (m : SendMoment)

/-- What is noted when a request goes out. -/
def noteSent (request : RequestRef) (msgId : MsgId) (s : SessionData) : SessionData :=
  let d := s.requests request
  if d.requestId = 0 then s
  else if d.needAck then
    let s := s.update request { d with msDate := if d.isStateRequest then 0 else m.now }
    { s with haveSent := s.haveSent.insert msgId request }
  else { s with wereAcked := s.wereAcked.insert msgId d.requestId }

/-- One round of the loop over `toSend`. -/
def placeRequest (p : Packing) (request : RequestRef) : Packing :=
  let (msgId, p) := p.placeId clock request
  let d := p.session.requests request
  let session := p.session.noteSent m request msgId
  if d.requestId ≠ 0 ∧ d.needAck then
    { p with session, toSendRequest := p.session.placeWrapped m d p.toSendRequest }
  else { p.copy request with session }

/-- The requests that `tryToSend` makes itself. -/
structure Services where
  ping : Option RequestRef
  ack : Option RequestRef
  resend : Option RequestRef
  state : Option RequestRef
  httpWait : Option RequestRef

def Services.count (x : Services) : ℕ :=
  (x.ping.toList ++ x.ack.toList ++ x.resend.toList ++ x.state.toList ++ x.httpWait.toList).length

def Services.first (x : Services) : Option RequestRef :=
  x.ping <|> x.ack <|> x.resend <|> x.state <|> x.httpWait

def allocIf (condition : Bool) (d : SecureRequestData) (s : SessionData) :
    Option RequestRef × SessionData :=
  if condition then
    let (request, s) := s.alloc d
    (some request, s)
  else (none, s)

def pingBody : List Int32 :=
  if m.prependOnly ∨ !m.mainSession then writeLong m.pingIdToSend [mtpc_ping.toInt32]
  else writeLong m.pingIdToSend [mtpc_ping_delay_disconnect.toInt32] ++ [kPingDelayDisconnect]

/-- A request of the connection's own. -/
def service (body : List Int32) (requestId : RequestId) : SecureRequestData :=
  { SecureRequestData.serialize body with msDate := m.now, requestId }

def services (s : SessionData) : Services × SessionData :=
  let (ping, s) := s.allocIf (m.pingIdToSend ≠ 0) (service m (pingBody m) 0)
  let (ack, s) := s.allocIf (m.connected && s.ackRequestData ≠ [])
    (service m (MTPMsgsAck.write s.ackRequestData []) 0)
  let (resend, s) := s.allocIf (m.connected && s.resendRequestData ≠ [])
    (service m (MTPMsgResendReq.write s.resendRequestData []) 0)
  let (state, s) := s.allocIf (m.connected && s.stateRequest.size ≠ 0)
    (service m (MTPMsgsStateReq.write s.stateRequest.keys []) m.stateRequestId)
  let (httpWait, s) := s.allocIf (m.connected && m.usingHttpWait)
    (service m [mtpc_http_wait.toInt32, 100, 30, 25000] 0)
  let s := if m.connected then
      { s with ackRequestData := [], resendRequestData := [], stateRequest := ∅ }
    else s
  (⟨ping, ack, resend, state, httpWait⟩, s)

/-! ## One request alone -/

def countPaddingAmountInInts (requestSize : UInt32) : UInt32 :=
  let result := if (8 + requestSize) &&& 0x03 ≠ 0 then 4 - ((8 + requestSize) &&& 0x03) else 0
  (if result < 3 then result + 4 else result) + m.extraPadding

def addPadding (d : SecureRequestData) : SecureRequestData :=
  if d.body = [] then d
  else
    let requestSize := d.innerLength >>> 2
    let padding := (countPaddingAmountInInts m requestSize).toNat
    if d.body.length = requestSize.toNat + padding then d
    else
      let inner := d.body.take requestSize.toNat
      { d with body := inner ++ List.replicate (requestSize.toNat - inner.length) 0 ++
          (List.range padding).map m.random }

/-- All words but the length are kept, and the wrapper goes in front of the body. -/
def wrapLayer (message : List Int32) : List Int32 :=
  let noWrapSize := ((message.getD 3 0).toUInt32 >>> 2).toNat
  message.take 3 ++ [Int32.ofNat (4 * (noWrapSize + m.initSizeInInts))] ++ m.initSerialized ++
    (message.drop 4).take noWrapSize

/-- Sends without a container. A request that is not wrapped gets its padding where it is. -/
def sendAlone (request : RequestRef) (s : SessionData) : List Int32 × SessionData :=
  let (newId, s) := s.nextMsgId clock
  let (msgId, s) := s.prepareToSend request newId
  let s := if m.pingIdToSend ≠ 0 then { s with pingMsgId := msgId } else s
  let d := s.requests request
  let s := s.noteSent m request msgId
  let tracked := d.requestId ≠ 0 ∧ d.needAck
  let message := if tracked ∧ d.after.isSome then s.wrapInvokeAfter [] d 0 else d.words
  let message := if tracked ∧ m.needsLayer ∧ d.needsLayer then wrapLayer m message else message
  if tracked ∧ (d.after.isSome ∨ m.needsLayer ∧ d.needsLayer) then (message, s)
  else (message, s.update request (addPadding m (s.requests request)))

/-! ## All together -/

/-- A request of the connection's own is put in when there is one. -/
def placeService (request : Option RequestRef) (p : Packing) : Packing :=
  match request with
  | some request => (p.placeToContainer clock request).2
  | none => p

def placePing (request : Option RequestRef) (p : Packing) : Packing :=
  match request with
  | some request =>
    let (msgId, p) := p.placeToContainer clock request
    { p with session := { p.session with pingMsgId := msgId } }
  | none => p

/-- The zero date says that the state of the request itself is not asked for. -/
def placeState (request : Option RequestRef) (p : Packing) : Packing :=
  match request with
  | some request =>
    let (msgId, p) := p.placeToContainer clock request
    let s := p.session.update request { p.session.requests request with msDate := 0 }
    { p with session := { s with haveSent := s.haveSent.insert msgId request } }
  | none => p

def containerSize (x : Services) (waiting : List RequestRef) (s : SessionData) : UInt32 :=
  let size (request : Option RequestRef) : UInt32 :=
    (request.map fun request => (s.requests request).messageSize).getD 0
  waiting.foldl (fun result request =>
    let d := s.requests request
    result + d.messageSize +
      if m.needsLayer && d.needsLayer then UInt32.ofNat m.initSizeInInts else 0)
    (2 + size x.ping + size x.ack + size x.resend + size x.state + size x.httpWait)

/-- The ids of a container in a buffer that looks like a request. -/
def idsWrap (msgId : MsgId) (ids : List MsgId) : SecureRequestData where
  msgId := msgId
  messageLength := UInt32.ofNat (2 * ids.length) <<< 2
  body := ids.foldl (fun buffer id => writeLong id buffer) []

/-- The messages between the header of the container and its end. -/
def packMessages (x : Services) (waiting : List RequestRef) (p : Packing) : Packing :=
  let p := placePing clock x.ping p
  let p := waiting.foldl (placeRequest clock m) p
  let p := placeState clock x.state p
  let p := placeService clock x.resend p
  let p := placeService clock x.ack p
  placeService clock x.httpWait p

/-- `toSend.clear()`; while the connection is not there yet an empty map stands for `toSend`. -/
def clearToSend (s : SessionData) : SessionData :=
  if m.prependOnly then s else { s with toSend := ∅ }

def sendContainer (x : Services) (waiting : List RequestRef) (s : SessionData) :
    List Int32 × SessionData :=
  let size := s.containerSize m x waiting
  let toSendCount := waiting.length + x.count
  let (bigMsgId, s) := s.nextMsgId clock
  let p := packMessages clock m x waiting {
    session := s
    toSendRequest := writeLong 0 [] ++ [(0 : Int32), (size <<< 2).toInt32, mtpc_msg_container.toInt32,
      Int32.ofNat toSendCount]
    bigMsgId
    ids := [] }
  -- the container has no id of its own yet, and needs no ack
  let (seqNo, s) := p.session.nextRequestSeqNumber false
  let (wrap, s) := s.alloc (idsWrap p.bigMsgId p.ids)
  (overwrite p.toSendRequest 0 (writeLong p.bigMsgId [] ++ [seqNo.toInt32]),
    clearToSend m { s with haveSent := s.haveSent.insert p.bigMsgId wrap })

/-- Gives what goes out, from the message id on, when there is anything. While the connection is
not there yet only a ping is sent. -/
def tryToSend (s : SessionData) : Option (List Int32) × SessionData :=
  if m.pingIdToSend = 0 ∧ m.prependOnly then (none, s)
  else
    let (x, s) := s.services m
    let waiting := if m.prependOnly then [] else s.toSend.values
    match x.first <|> waiting.head? with
    | none => (none, s)
    | some first =>
      if waiting.length + x.count = 1 ∧ 0 < (s.requests first).msDate then
        ((clearToSend m s).sendAlone clock m first).map some id
      else (s.sendContainer clock m x waiting).map some id

end SessionData

end Bettergram.Mtproto
