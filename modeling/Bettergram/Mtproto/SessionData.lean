import Bettergram.Mtproto.CoreTypes
import Bettergram.Mtproto.ReceivedMsgIds

/-! # Requests

A request is kept in the buffer that is sent. The ids that were sent in one
container are kept in a buffer of the same kind, which is told from the others
by its date and number.
-/

namespace Bettergram.Mtproto

abbrev RequestId := Int32

/-- Where a shared pointer to a request points. -/
abbrev RequestRef := ℕ

def mtpc_msgs_ack : UInt32 := 0x62d6b459
def mtpc_bad_msg_notification : UInt32 := 0xa7eff811
def mtpc_msgs_state_req : UInt32 := 0xda69fb52
def mtpc_msgs_state_info : UInt32 := 0x04deb57d
def mtpc_msgs_all_info : UInt32 := 0x8cc0d131
def mtpc_msg_detailed_info : UInt32 := 0x276d3ec6
def mtpc_msg_new_detailed_info : UInt32 := 0x809db6df
def mtpc_msg_resend_req : UInt32 := 0x7d861a08
def mtpc_http_wait : UInt32 := 0x9299359f
def mtpc_ping : UInt32 := 0x7abe77ec
def mtpc_ping_delay_disconnect : UInt32 := 0xf3427b8c
def mtpc_msg_container : UInt32 := 0x73f1f8dc
def mtpc_gzip_packed : UInt32 := 0x3072cfa1
def mtpc_rpc_error : UInt32 := 0x2144ca19
def mtpc_invokeAfterMsg : UInt32 := 0xcb9f372d
def mtpc_invokeWithLayer : UInt32 := 0xda9b0d0d

/-! ## Message ids in a buffer -/

def joinLong (low high : Int32) : MsgId :=
  low.toUInt32.toUInt64 ||| high.toUInt32.toUInt64 <<< 32

/-- The words read as message ids; an odd word at the end is left out. -/
def longs : List Int32 → List MsgId
  | low :: high :: words => joinLong low high :: longs words
  | _ => []

/-- Puts other ids in the place of those in the words. -/
def mapLongs (f : MsgId → MsgId) : List Int32 → List Int32
  | low :: high :: words => writeLong (f (joinLong low high)) [] ++ mapLongs f words
  | words => words

/-! ## Requests that are a list of message ids -/

def msgIdsRequest (type : UInt32) (name : String) : Codec (List MsgId) :=
  let ids := MTPBoxed.codec (MTPvector.codec MTPlong.codec)
  { type
    cons := type
    innerLength := ids.innerLength
    write := ids.write
    read := fun data start cons =>
      if cons ≠ type then .error (.unexpected cons name) else ids.read data start ids.cons }

def MTPMsgsAck : Codec (List MsgId) := MTPBoxed.codec (msgIdsRequest mtpc_msgs_ack "MTPmsgsAck")

def MTPMsgsStateReq : Codec (List MsgId) :=
  MTPBoxed.codec (msgIdsRequest mtpc_msgs_state_req "MTPmsgsStateReq")

def MTPMsgResendReq : Codec (List MsgId) :=
  MTPBoxed.codec (msgIdsRequest mtpc_msg_resend_req "MTPmsgResendReq")

/-! ## The buffer of a request -/

/-- The buffer is kept by its fields: the salt and the session in front of them are set when it is
encrypted, and `Prepare` makes no buffer without them. -/
structure SecureRequestData where
  msgId : MsgId := 0
  seqNo : UInt32 := 0
  messageLength : UInt32 := 0
  body : List Int32 := []
  msDate : ℤ := 0
  requestId : RequestId := 0
  after : Option RequestRef := none
  needsLayer : Bool := false

namespace SecureRequestData

def prepare (size : UInt32) : SecureRequestData where
  messageLength := size <<< 2

def serialize (request : List Int32) : SecureRequestData :=
  { prepare (UInt32.ofNat request.length) with body := request }

/-- `size() <= kMessageBodyPosition` says that there is no body. -/
def innerLength (d : SecureRequestData) : UInt32 := if d.body = [] then 0 else d.messageLength

def messageSize (d : SecureRequestData) : UInt32 :=
  if d.body = [] then 0 else (2 + 1 + 1 : UInt32) + (d.innerLength >>> 2)

def type (d : SecureRequestData) : UInt32 := (d.body.headD 0).toUInt32

def isSentContainer (d : SecureRequestData) : Bool :=
  if d.body = [] then false else d.msDate = 0 ∧ d.seqNo = 0

def isStateRequest (d : SecureRequestData) : Bool :=
  if d.body = [] then false else d.type = mtpc_msgs_state_req

def serviceTypes : List UInt32 :=
  [mtpc_msg_container, mtpc_msgs_ack, mtpc_http_wait, mtpc_bad_msg_notification,
    mtpc_msgs_all_info, mtpc_msgs_state_info, mtpc_msg_detailed_info, mtpc_msg_new_detailed_info]

def needAck (d : SecureRequestData) : Bool :=
  if d.body = [] then false else d.type ∉ serviceTypes

/-- The words behind the session. -/
def words (d : SecureRequestData) : List Int32 :=
  writeLong d.msgId [] ++ [d.seqNo.toInt32, d.messageLength.toInt32] ++ d.body

/-- The body read as the ids of the messages in a container. -/
def sentIds (d : SecureRequestData) : List MsgId := longs d.body

end SecureRequestData

end Bettergram.Mtproto

/-! ## What a session and its connection know of the requests

The maps of a session hold shared pointers. A request waits in `toSend` until
it is sent and stays in `haveSent` until it is answered.
-/

namespace Bettergram.Mtproto

/-- The maps of the session, what its connection keeps between two packets, and the callbacks and
requests of the instance. `msgIdCalls` counts the calls of `msgid`, `nextRef` the requests made. -/
structure SessionData where
  requests : RequestRef → SecureRequestData := fun _ => {}
  nextRef : RequestRef := 0
  toSend : Std.TreeMap RequestId RequestRef := ∅
  haveSent : Std.TreeMap MsgId RequestRef := ∅
  toResend : Std.TreeMap MsgId RequestId := ∅
  wereAcked : Std.TreeMap MsgId RequestId := ∅
  stateRequest : Std.TreeMap MsgId Bool := ∅
  receivedResponses : Std.TreeMap RequestId (List Int32) := ∅
  messagesSent : UInt32 := 0
  pingMsgId : MsgId := 0
  ackRequestData : List MsgId := []
  resendRequestData : List MsgId := []
  parserMap : RequestId → Bool := fun _ => false
  requestMap : RequestId → Option RequestRef := fun _ => none
  clearDelayed : List (RequestId × ℤ) := []
  msgIdCalls : ℕ := 0

namespace SessionData

def hasCallbacks (requestId : RequestId) (s : SessionData) : Bool := s.parserMap requestId

def nextRequestSeqNumber (needAck : Bool) (s : SessionData) : UInt32 × SessionData :=
  let result := s.messagesSent
  let one := if needAck then 1 else 0
  (result * 2 + one, { s with messagesSent := s.messagesSent + one })

/-- Writes through a shared pointer. -/
def update (ref : RequestRef) (d : SecureRequestData) (s : SessionData) : SessionData :=
  { s with requests := Function.update s.requests ref d }

/-- Makes a new request. -/
def alloc (d : SecureRequestData) (s : SessionData) : RequestRef × SessionData :=
  (s.nextRef, { s.update s.nextRef d with nextRef := s.nextRef + 1 })

/-- `mtpRequestId(0xFFFFFFFF)`: what was sent is no request. -/
def noRequest : RequestId := -1

def wasSent (msgId : MsgId) (s : SessionData) : RequestId :=
  if msgId = s.pingMsgId then noRequest
  else match s.haveSent[msgId]? with
    | some ref => if (s.requests ref).requestId ≠ 0 then (s.requests ref).requestId else noRequest
    | none => match s.toResend[msgId]? with
      | some requestId => requestId
      | none => (s.wereAcked[msgId]?).getD 0

/-! ## Acknowledgements -/

/-- `RPCError::TimeoutError`. -/
def timeoutError : ℤ := 1

/-- An ack without a response says nothing when a response is needed. -/
def moveToAcked (byResponse : Bool) (requestId : RequestId) (s : SessionData) : Bool :=
  byResponse || !s.hasCallbacks requestId

/-- One id of the loop of `requestsAcked`, with `toAckMore`. -/
def ackOne (byResponse : Bool) (x : SessionData × List MsgId) (msgId : MsgId) :
    SessionData × List MsgId :=
  let (s, toAckMore) := x
  match s.haveSent[msgId]? with
  | some ref =>
    let req := s.requests ref
    if req.msDate = 0 then
      ({ s with haveSent := s.haveSent.erase msgId }, toAckMore ++ req.sentIds)
    else if s.moveToAcked byResponse req.requestId then
      ({ s with
          wereAcked := s.wereAcked.insert msgId req.requestId
          haveSent := s.haveSent.erase msgId }, toAckMore)
    else (s, toAckMore)
  | none =>
    match s.toResend[msgId]? with
    | some reqId =>
      if s.moveToAcked byResponse reqId then
        match s.toSend[reqId]? with
        | some ref =>
          ({ s with
              wereAcked := s.wereAcked.insert msgId (s.requests ref).requestId
              toSend := s.toSend.erase reqId
              toResend := s.toResend.erase msgId }, toAckMore)
        | none => ({ s with toResend := s.toResend.erase msgId }, toAckMore)
      else (s, toAckMore)
    | none => (s, toAckMore)

/-- Erases the first acked id some times. -/
def clearTooOld : ℕ → SessionData → SessionData
  | 0, s => s
  | n + 1, s =>
    match s.wereAcked.minKey? with
    | none => s
    | some msgId =>
      clearTooOld n { s with
        wereAcked := s.wereAcked.erase msgId
        clearDelayed := s.clearDelayed ++ [((s.wereAcked[msgId]?).getD 0, timeoutError)] }

/-- `requestsAcked` up to the call for the ids in containers. -/
def ackRound (byResponse : Bool) (ids : List MsgId) (s : SessionData) : SessionData × List MsgId :=
  let (s, toAckMore) := ids.foldl (ackOne byResponse) (s, [])
  (s.clearTooOld (s.wereAcked.size - kIdsBufferSize), toAckMore)

def ackRounds : ℕ → List MsgId → Bool → SessionData → SessionData
  | 0, _, _, s => s
  | fuel + 1, ids, byResponse, s =>
    let (s, toAckMore) := s.ackRound byResponse ids
    if toAckMore = [] then s else ackRounds fuel toAckMore false s

/-- A call of itself follows the loss of a container, so there are no more calls than messages. -/
def requestsAcked (ids : List MsgId) (byResponse : Bool) (s : SessionData) : SessionData :=
  s.ackRounds (s.haveSent.size + 1) ids byResponse

end SessionData

end Bettergram.Mtproto
