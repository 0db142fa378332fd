import Mathlib.Algebra.Group.Int.Defs
import Mathlib.Algebra.Group.Nat.Defs
import Mathlib.Data.Int.Notation
import Mathlib.Data.Nat.Notation
import Mathlib.Logic.Function.Basic

/-! # The list of chats of an export

`ApiWrap` asks for the dialogs of each split page by page, from the last split to the first, and
then for the channels that were left. The chats of all pages are merged by an index map. A state
here has one request in flight, and an exchange is the request with its answer.
-/

namespace Bettergram.Export.ChatsList

abbrev PeerId := ℕ

def kUserPeerIdShift : ℕ := 2 ^ 32
def kChatPeerIdShift : ℕ := 2 * 2 ^ 32

def userPeerId (userId : ℕ) : PeerId := kUserPeerIdShift ||| userId
def chatPeerId (chatId : ℕ) : PeerId := kChatPeerIdShift ||| chatId

def isChatPeerId (peerId : PeerId) : Bool := peerId &&& kChatPeerIdShift = kChatPeerIdShift

/-- The bits of `BarePeerId`, which is an `int32`. -/
def barePeerId (peerId : PeerId) : ℕ := peerId &&& 0xFFFFFFFF

inductive InputPeer where
  | empty
  | self
  | user (userId : ℕ) (accessHash : ℤ)
  | chat (chatId : ℕ)
  | channel (channelId : ℕ) (accessHash : ℤ)
  deriving DecidableEq

inductive DialogType where
  | unknown
  | self
  | personal
  | bot
  | privateGroup
  | privateSupergroup
  | publicSupergroup
  | privateChannel
  | publicChannel
  deriving DecidableEq

/-! ## Settings -/

abbrev Types := ℕ

namespace Types

def personalChats : Types := 0x020
def botChats : Types := 0x040
def privateGroups : Types := 0x080
def publicGroups : Types := 0x100
def privateChannels : Types := 0x200
def publicChannels : Types := 0x400

def groupsChannelsMask : Types :=
  privateGroups ||| publicGroups ||| privateChannels ||| publicChannels

def nonChannelChatsMask : Types := personalChats ||| botChats ||| privateGroups

end Types

/-- Settings without a single peer: `requestSinglePeerDialog` makes the list for that. -/
structure Settings where
  types : Types
  fullChats : Types

def settingsFromDialogsType : DialogType → Types
  | .self | .personal => Types.personalChats
  | .bot => Types.botChats
  | .privateGroup | .privateSupergroup => Types.privateGroups
  | .publicSupergroup => Types.publicGroups
  | .privateChannel => Types.privateChannels
  | .publicChannel => Types.publicChannels
  | .unknown => 0

def Settings.useOnlyLastSplit (settings : Settings) : Bool :=
  settings.types &&& Types.nonChannelChatsMask = 0

/-! ## Dialogs -/

structure DialogInfo where
  type : DialogType := .unknown
  name : List UInt8 := []
  lastName : List UInt8 := []
  input : InputPeer := .empty
  topMessageId : ℤ := 0
  topMessageDate : ℤ := 0
  peerId : PeerId := 0
  splits : List ℕ := []
  onlyMyMessages : Bool := false
  isLeftChannel : Bool := false
  relativePath : String := ""
  messagesCountPerSplit : List ℕ := []

structure DialogsInfo where
  chats : List DialogInfo := []
  left : List DialogInfo := []

structure User where
  userId : ℕ
  firstName : List UInt8
  lastName : List UInt8
  isSelf : Bool
  isBot : Bool
  input : InputPeer

structure Chat where
  id : ℕ
  title : List UInt8
  username : List UInt8
  isBroadcast : Bool
  isSupergroup : Bool
  input : InputPeer

inductive Peer where
  | user (user : User)
  | chat (chat : Chat)

def dialogTypeFromChat (chat : Chat) : DialogType :=
  if chat.username.isEmpty then
    if chat.isBroadcast then .privateChannel
    else if chat.isSupergroup then .privateSupergroup
    else .privateGroup
  else if chat.isBroadcast then .publicChannel
  else .publicSupergroup

def dialogTypeFromUser (user : User) : DialogType :=
  if user.isSelf then .self else if user.isBot then .bot else .personal

/-- A `dialog` of the scheme: its peer and its last message. -/
structure Dialog where
  peer : PeerId
  topMessage : ℤ

/-- The dialogs of an answer; `peers` and `messages` are the maps read from its other vectors. -/
structure Dialogs where
  dialogs : List Dialog
  peers : PeerId → Option Peer
  messages : ℕ → Option ℤ

def messageKey (peerId : PeerId) (topMessageId : ℤ) : ℕ :=
  (if isChatPeerId peerId then barePeerId peerId * 2 ^ 32 else 0)
    ||| (topMessageId % 2 ^ 32).toNat

def withPeer (info : DialogInfo) : Option Peer → DialogInfo
  | none => info
  | some (.user user) =>
    { info with
      type := dialogTypeFromUser user
      name := user.firstName
      lastName := user.lastName
      input := user.input }
  | some (.chat chat) =>
    { info with
      type := dialogTypeFromChat chat
      name := chat.title
      lastName := []
      input := chat.input }

def parseDialog (data : Dialogs) (dialog : Dialog) : DialogInfo :=
  { withPeer { peerId := dialog.peer } (data.peers dialog.peer) with
    topMessageId := dialog.topMessage
    topMessageDate := (data.messages (messageKey dialog.peer dialog.topMessage)).getD 0 }

def parseDialogsInfo (data : Dialogs) : List DialogInfo := data.dialogs.map (parseDialog data)

def dialogInfoFromChat (data : Chat) : DialogInfo where
  input := data.input
  name := data.title
  peerId := chatPeerId data.id
  type := dialogTypeFromChat data

def parseLeftChannelsInfo (chats : List Chat) : List DialogInfo :=
  chats.map fun chat => { dialogInfoFromChat chat with isLeftChannel := true }

/-! ## Merging -/

structure ChatsProcess where
  list : List DialogInfo := []
  indexByPeer : PeerId → Option ℕ := fun _ => none

def DialogInfo.pushSplit (splitIndex : ℕ) (info : DialogInfo) : DialogInfo :=
  { info with
    splits := info.splits ++ [splitIndex]
    messagesCountPerSplit := info.messagesCountPerSplit ++ [0] }

/-- One round of the loop of `appendChatsSlice`. -/
def ChatsProcess.appendChat (splitIndex : ℕ) (process : ChatsProcess) (info : DialogInfo) :
    ChatsProcess :=
  match process.indexByPeer info.peerId with
  | some i => { process with list := process.list.modify i (.pushSplit splitIndex) }
  | none =>
    let nextIndex := process.list.length
    { list := (process.list ++ [info]).modify nextIndex (.pushSplit splitIndex)
      indexByPeer := Function.update process.indexByPeer info.peerId (some nextIndex) }

def Settings.wants (settings : Settings) (info : DialogInfo) : Bool :=
  settings.types &&& settingsFromDialogsType info.type ≠ 0

def ChatsProcess.appendChatsSlice (settings : Settings) (process : ChatsProcess)
    (from_ : List DialogInfo) (splitIndex : ℕ) : ChatsProcess :=
  (from_.filter settings.wants).foldl (appendChat splitIndex) process

/-! ## The finished list -/

/-- `NumberToString` with a length and zeros in front. -/
def numberToString (value length : ℕ) : String :=
  let digits := Nat.toDigits 10 value
  String.ofList (List.replicate (length - digits.length) '0' ++ digits)

def Settings.onlyMyMessages (settings : Settings) (type : DialogType) : Bool :=
  let setting := settingsFromDialogsType type
  settings.fullChats &&& setting ≠ setting

def relativePath (index digits : ℕ) : String :=
  "chats/chat_" ++ numberToString index digits ++ "/"

def finalizeDialogsInfo (info : DialogsInfo) (settings : Settings) : DialogsInfo :=
  let fullCount := info.chats.length + info.left.length
  let digits := (Nat.toDigits 10 (fullCount - 1)).length
  { chats := info.chats.mapIdx fun index dialog =>
      { dialog with
        relativePath := relativePath (index + 1) digits
        onlyMyMessages := settings.onlyMyMessages dialog.type
        splits := dialog.splits.reverse }
    left := info.left.mapIdx fun index dialog =>
      { dialog with
        relativePath := relativePath (info.chats.length + index + 1) digits
        onlyMyMessages := true } }

/-! ## Requests and answers -/

structure DialogsProcess extends ChatsProcess where
  processedCount : ℕ := 0
  splitIndexPlusOne : ℕ
  offsetDate : ℤ := 0
  offsetId : ℤ := 0
  offsetPeer : InputPeer := .empty

structure LeftChannelsProcess extends ChatsProcess where
  fullCount : ℤ := 0
  offset : ℕ := 0
  finished : Bool := false

/-- What is waited for: the first left channels (when the export starts, to count them), a page of
dialogs, the other left channels, or nothing any more. -/
inductive Phase where
  | counting
  | dialogs
  | left
  | done (info : DialogsInfo)
  | stopped
  | error

structure State where
  phase : Phase
  dialogs : DialogsProcess
  left : LeftChannelsProcess := {}

inductive Request where
  | getDialogs (splitIndex : ℕ) (offsetDate offsetId : ℤ) (offsetPeer : InputPeer)
  | getLeftChannels (offset : ℕ)

inductive DialogsAnswer where
  | dialogs (data : Dialogs)
  | dialogsSlice (count : ℤ) (data : Dialogs)
  | dialogsNotModified

inductive ChatsAnswer where
  | chats (list : List Chat)
  | chatsSlice (count : ℤ) (list : List Chat)

def ChatsAnswer.list : ChatsAnswer → List Chat
  | .chats list | .chatsSlice _ list => list

def Settings.leftChannelsNeeded (settings : Settings) : Bool :=
  settings.types &&& Types.groupsChannelsMask ≠ 0

def State.start (settings : Settings) (splits : ℕ) : State where
  phase := if settings.leftChannelsNeeded then .counting else .dialogs
  dialogs := { splitIndexPlusOne := splits }

def State.request (s : State) : Option Request :=
  match s.phase with
  | .counting | .left => some (.getLeftChannels s.left.offset)
  | .dialogs =>
    some (.getDialogs (s.dialogs.splitIndexPlusOne - 1) s.dialogs.offsetDate s.dialogs.offsetId
      s.dialogs.offsetPeer)
  | .done _ | .stopped | .error => none

/-- The chats of an answer, and whether the split is finished. -/
def DialogsAnswer.parsed : DialogsAnswer → Option (List DialogInfo × Bool)
  | .dialogs data => some (parseDialogsInfo data, true)
  | .dialogsSlice _ data => some (parseDialogsInfo data, data.dialogs.isEmpty)
  | .dialogsNotModified => none

def DialogsProcess.appendDialogsSlice (settings : Settings) (process : DialogsProcess)
    (chats : List DialogInfo) : DialogsProcess :=
  { process with
    processedCount := process.processedCount + chats.length
    toChatsProcess :=
      process.appendChatsSlice settings chats (process.splitIndexPlusOne - 1) }

def State.finishDialogsList (settings : Settings) (s : State) (left : List DialogInfo) : State :=
  { s with phase := .done (finalizeDialogsInfo ⟨s.dialogs.list, left⟩ settings) }

def State.requestLeftChannelsIfNeeded (settings : Settings) (s : State) : State :=
  if settings.leftChannelsNeeded then { s with phase := .left }
  else s.finishDialogsList settings []

/-- What is done with an answer to `getDialogs`; `goOn` is what the progress handler returns. -/
def State.gotDialogs (settings : Settings) (goOn : Bool) (s : State) (answer : DialogsAnswer) :
    State :=
  match answer.parsed with
  | none => { s with phase := .error }
  | some (chats, finished) =>
    let last := chats.getLast?.getD {}
    let process := s.dialogs.appendDialogsSlice settings chats
    if !goOn then { s with dialogs := process, phase := .stopped }
    else if !finished && 0 < last.topMessageDate then
      { s with
        dialogs :=
          { process with
            offsetId := last.topMessageId
            offsetDate := last.topMessageDate
            offsetPeer := last.input } }
    else if settings.useOnlyLastSplit then
      { s with dialogs := process }.requestLeftChannelsIfNeeded settings
    else
      let process := { process with splitIndexPlusOne := process.splitIndexPlusOne - 1 }
      if 0 < process.splitIndexPlusOne then
        { s with
          dialogs := { process with offsetId := 0, offsetDate := 0, offsetPeer := .empty } }
      else { s with dialogs := process }.requestLeftChannelsIfNeeded settings

def LeftChannelsProcess.appendLeftChannelsSlice (settings : Settings) (splits : ℕ)
    (process : LeftChannelsProcess) (answer : ChatsAnswer) : LeftChannelsProcess where
  toChatsProcess :=
    process.appendChatsSlice settings (parseLeftChannelsInfo answer.list) (splits - 1)
  offset := process.offset + answer.list.length
  fullCount :=
    match answer with
    | .chats list => list.length
    | .chatsSlice count _ => count
  finished :=
    match answer with
    | .chats _ => true
    | .chatsSlice _ list => list.isEmpty

/-- What is done with an answer to `getLeftChannels`. -/
def State.gotLeftChannels (settings : Settings) (splits : ℕ) (goOn : Bool) (s : State)
    (answer : ChatsAnswer) : State :=
  let s := { s with left := s.left.appendLeftChannelsSlice settings splits answer }
  match s.phase with
  | .counting => { s with phase := .dialogs }
  | _ =>
    if !goOn then { s with phase := .stopped }
    else if s.left.finished then s.finishDialogsList settings s.left.list
    else s

/-- A request with its answer and with what the progress handler returns then. -/
inductive Exchange where
  | dialogs (splitIndex : ℕ) (offsetDate offsetId : ℤ) (offsetPeer : InputPeer)
    (answer : DialogsAnswer) (goOn : Bool)
  | leftChannels (offset : ℕ) (answer : ChatsAnswer) (goOn : Bool)

/-- A run: each request that is sent is answered. -/
inductive Run (settings : Settings) (splits : ℕ) : State → List Exchange → State → Prop
  | nil (s) : Run settings splits s [] s
  | dialogs {s t rest splitIndex offsetDate offsetId offsetPeer} (answer goOn) :
    s.request = some (.getDialogs splitIndex offsetDate offsetId offsetPeer) →
    Run settings splits (s.gotDialogs settings goOn answer) rest t →
    Run settings splits s
      (.dialogs splitIndex offsetDate offsetId offsetPeer answer goOn :: rest) t
  | leftChannels {s t rest offset} (answer goOn) :
    s.request = some (.getLeftChannels offset) →
    Run settings splits (s.gotLeftChannels settings splits goOn answer) rest t →
    Run settings splits s (.leftChannels offset answer goOn :: rest) t

end Bettergram.Export.ChatsList
