import Mathlib.Data.List.Basic
import Mathlib.Data.Int.Notation

/-! # Exporting the messages of a chat

`ApiWrap` with its chat process: the messages of each split are counted, then requested page by
page from the last id on. The files of a page are loaded one by one, and the page is handed to
the writer. A path is never empty, so an empty `relativePath` is `none`; what the file cache
knows and what a write gives come from the storage.
-/

namespace Bettergram.Export

inductive SkipReason where
  | none
  | unavailable
  | fileType
  | fileSize
  | dateLimits
  deriving DecidableEq

variable {Location Path Env : Type}

structure File (Location Path : Type) where
  location : Option Location
  size : ℕ
  content : List UInt8
  relativePath : Option Path := none
  skipReason : SkipReason := .none

inductive MediaType where
  | photo
  | video
  | voiceMessage
  | videoMessage
  | sticker
  | gif
  | file
  deriving DecidableEq

inductive MediaContent where
  | document (isSticker isVideoMessage isVoiceMessage isAnimated isVideoFile : Bool)
  | other
  deriving DecidableEq

def MediaContent.type : MediaContent → MediaType
  | .document isSticker isVideoMessage isVoiceMessage isAnimated isVideoFile =>
    if isSticker then .sticker
    else if isVideoMessage then .videoMessage
    else if isVoiceMessage then .voiceMessage
    else if isAnimated then .gif
    else if isVideoFile then .video
    else .file
  | .other => .photo

/-- A message without its files. -/
structure MessageData where
  id : ℤ
  date : ℤ
  content : MediaContent
  deriving DecidableEq

structure Message (Location Path : Type) extends MessageData where
  file : File Location Path
  thumb : File Location Path

structure Settings where
  mediaTypes : MediaType → Bool
  sizeLimit : ℕ
  singlePeerFrom : ℤ
  singlePeerTill : ℤ

def SkipMessageByDate (message : MessageData) (settings : Settings) : Bool :=
  let goodFrom := settings.singlePeerFrom ≤ 0 || settings.singlePeerFrom ≤ message.date
  let goodTill := settings.singlePeerTill ≤ 0 || message.date < settings.singlePeerTill
  !goodFrom || !goodTill

/-- The file cache, and writing the content of a file; a write that fails gives no path. -/
structure Storage (Location Path Env : Type) where
  find : Env → Location → Option Path
  writeBlock : Env → File Location Path → Option Path × Env

/-! ## One file -/

inductive LoadResult (Location Path Env : Type) where
  | ready (file : File Location Path) (env : Env)
  | loading
  | ioError (env : Env)

variable (settings : Settings) (storage : Storage Location Path Env)

/-- `none` is a file that has to be loaded. -/
def writePreloadedFile (env : Env) (file : File Location Path) :
    Option (LoadResult Location Path Env) :=
  match file.location.bind (storage.find env) with
  | some path => some (.ready { file with relativePath := some path } env)
  | none =>
    if file.content.isEmpty then none
    else
      match storage.writeBlock env file with
      | (some path, env) => some (.ready { file with relativePath := some path } env)
      | (none, env) => some (.ioError env)

def processFileLoad (env : Env) (file : File Location Path) (message : Message Location Path) :
    LoadResult Location Path Env :=
  if file.relativePath.isSome || file.skipReason ≠ .none then .ready file env
  else if file.location.isNone && file.content.isEmpty then
    .ready { file with skipReason := .unavailable } env
  else
    match writePreloadedFile storage env file with
    | some result => result
    | none =>
      if SkipMessageByDate message.toMessageData settings then
        .ready { file with skipReason := .dateLimits } env
      else if !settings.mediaTypes message.content.type then
        .ready { file with skipReason := .fileType } env
      else if settings.sizeLimit ≤ message.file.size then
        .ready { file with skipReason := .fileSize } env
      else .loading

/-! ## The process of a chat -/

structure DialogInfo where
  splits : List ℕ
  messagesCountPerSplit : List ℕ

structure ChatProcess (Location Path : Type) where
  info : DialogInfo
  localSplitIndex : ℕ := 0
  largestIdPlusOne : ℤ := 1
  slice : Option (List (Message Location Path)) := none
  lastSlice : Bool := false
  fileIndex : ℕ := 0

structure Callbacks (Location Path : Type) where
  start : DialogInfo → Bool
  fileProgress : ℕ → Bool
  handleSlice : List (Message Location Path) → Bool

/-- What has been requested: the count of a split, a page, or a part of a file. -/
inductive Pending where
  | count (localSplitIndex : ℕ)
  | slice
  | file
  | thumb
  deriving DecidableEq

structure ApiWrap (Location Path Env : Type) where
  chatProcess : Option (ChatProcess Location Path)
  pending : Option Pending
  env : Env
  slices : List (List (Message Location Path)) := []
  doneCalls : ℕ := 0
  ioErrors : ℕ := 0

namespace ApiWrap

variable (callbacks : Callbacks Location Path)

def wait (pending : Option Pending) (process : ChatProcess Location Path)
    (api : ApiWrap Location Path Env) : ApiWrap Location Path Env :=
  { api with chatProcess := some process, pending := pending }

def ioError (process : ChatProcess Location Path) (env : Env) (api : ApiWrap Location Path Env) :
    ApiWrap Location Path Env :=
  { api with chatProcess := some process, pending := none, env, ioErrors := api.ioErrors + 1 }

def finishMessages (api : ApiWrap Location Path Env) : ApiWrap Location Path Env :=
  { api with chatProcess := none, pending := none, doneCalls := api.doneCalls + 1 }

/-- `request` requests the next page. -/
def nextSlice (request : ChatProcess Location Path → ApiWrap Location Path Env →
    ApiWrap Location Path Env) (process : ChatProcess Location Path)
    (api : ApiWrap Location Path Env) : ApiWrap Location Path Env :=
  if process.lastSlice then
    let process := { process with localSplitIndex := process.localSplitIndex + 1 }
    if process.localSplitIndex < process.info.splits.length then
      request { process with lastSlice := false, largestIdPlusOne := 1 } api
    else finishMessages api
  else request process api

def finishMessagesSlice (request : ChatProcess Location Path → ApiWrap Location Path Env →
    ApiWrap Location Path Env) (process : ChatProcess Location Path)
    (api : ApiWrap Location Path Env) : ApiWrap Location Path Env :=
  let slice := process.slice.getD []
  let process := { process with slice := none }
  match slice.getLast? with
  | none => nextSlice request process api
  | some last =>
    let process := { process with largestIdPlusOne := last.id + 1 }
    let api := { api with slices := api.slices ++ [slice] }
    if callbacks.handleSlice slice then nextSlice request process api
    else api.wait none process

/-- A file of the current message was changed. -/
def setMessage (message : Message Location Path) (process : ChatProcess Location Path) :
    ChatProcess Location Path :=
  { process with slice := process.slice.map fun list => list.set process.fileIndex message }

/-- The loop over the files, for the messages that are left of the slice. -/
def loadFiles (request : ChatProcess Location Path → ApiWrap Location Path Env →
    ApiWrap Location Path Env) : ℕ → ChatProcess Location Path → ApiWrap Location Path Env →
    ApiWrap Location Path Env
  | 0, process, api => finishMessagesSlice callbacks request process api
  | left + 1, process, api =>
    match process.slice.bind fun list => list[process.fileIndex]? with
    | none => finishMessagesSlice callbacks request process api
    | some message =>
      if SkipMessageByDate message.toMessageData settings then
        loadFiles request left { process with fileIndex := process.fileIndex + 1 } api
      else
        match processFileLoad settings storage api.env message.file message with
        | .loading =>
          api.wait (if callbacks.fileProgress process.fileIndex then some .file else none) process
        | .ioError env => api.ioError process env
        | .ready file env =>
          let message := { message with file }
          let process := process |> setMessage message
          match processFileLoad settings storage env message.thumb message with
          | .loading =>
            { api with env }.wait
              (if callbacks.fileProgress process.fileIndex then some .thumb else none) process
          | .ioError env => api.ioError process env
          | .ready thumb env =>
            let process := process |> setMessage { message with thumb }
            loadFiles request left { process with fileIndex := process.fileIndex + 1 }
              { api with env }

def loadNextMessageFile (request : ChatProcess Location Path → ApiWrap Location Path Env →
    ApiWrap Location Path Env) (process : ChatProcess Location Path)
    (api : ApiWrap Location Path Env) : ApiWrap Location Path Env :=
  loadFiles settings storage callbacks request ((process.slice.getD []).length - process.fileIndex)
    process api

def loadMessagesFiles (request : ChatProcess Location Path → ApiWrap Location Path Env →
    ApiWrap Location Path Env) (slice : List (Message Location Path))
    (process : ChatProcess Location Path) (api : ApiWrap Location Path Env) :
    ApiWrap Location Path Env :=
  loadNextMessageFile settings storage callbacks request
    { process with
      lastSlice := process.lastSlice || slice.isEmpty
      slice := some slice
      fileIndex := 0 } api

/-- A split without messages is passed at once; there are at most as many as splits. -/
def requestSlices : ℕ → ChatProcess Location Path → ApiWrap Location Path Env →
    ApiWrap Location Path Env
  | 0, process, api => api.wait none process
  | splits + 1, process, api =>
    if process.info.messagesCountPerSplit.getD process.localSplitIndex 0 = 0 then
      loadMessagesFiles settings storage callbacks (requestSlices splits) [] process api
    else api.wait (some .slice) process

def requestMessagesSlice (process : ChatProcess Location Path)
    (api : ApiWrap Location Path Env) : ApiWrap Location Path Env :=
  requestSlices settings storage callbacks process.info.splits.length process api

def messagesCountLoaded (localSplitIndex count : ℕ) (process : ChatProcess Location Path)
    (api : ApiWrap Location Path Env) : ApiWrap Location Path Env :=
  let info := { process.info with
    messagesCountPerSplit := process.info.messagesCountPerSplit.set localSplitIndex count }
  let process := { process with info }
  if localSplitIndex + 1 < info.splits.length then
    api.wait (some (.count (localSplitIndex + 1))) process
  else if callbacks.start info then requestMessagesSlice settings storage callbacks process api
  else api.wait none process

/-- A page of the server comes newest first; one that is not sliced is the last. -/
def messagesLoaded (sliced : Bool) (messages : List (Message Location Path))
    (process : ChatProcess Location Path) (api : ApiWrap Location Path Env) :
    ApiWrap Location Path Env :=
  loadMessagesFiles settings storage callbacks (requestMessagesSlice settings storage callbacks)
    messages.reverse { process with lastSlice := process.lastSlice || !sliced } api

def loaded (path : Option Path) (file : File Location Path) : File Location Path :=
  { file with
    relativePath := path
    skipReason := if path.isNone then .unavailable else file.skipReason }

def loadMessageFileDone (path : Option Path) (process : ChatProcess Location Path)
    (api : ApiWrap Location Path Env) : ApiWrap Location Path Env :=
  match process.slice.bind fun list => list[process.fileIndex]? with
  | none => api
  | some message =>
    loadNextMessageFile settings storage callbacks
      (requestMessagesSlice settings storage callbacks)
      (process |> setMessage { message with file := loaded path message.file }) api

def loadMessageThumbDone (path : Option Path) (process : ChatProcess Location Path)
    (api : ApiWrap Location Path Env) : ApiWrap Location Path Env :=
  match process.slice.bind fun list => list[process.fileIndex]? with
  | none => api
  | some message =>
    loadNextMessageFile settings storage callbacks
      (requestMessagesSlice settings storage callbacks)
      (process |> setMessage { message with thumb := loaded path message.thumb }) api

/-- An answer to what is pending. A file that was loaded may be in the file cache after it. -/
inductive Event (Location Path Env : Type) where
  | counted (count : ℕ)
  | page (sliced : Bool) (messages : List (Message Location Path))
  | fileDone (path : Option Path) (env : Env)

def step (api : ApiWrap Location Path Env) (event : Event Location Path Env) :
    ApiWrap Location Path Env :=
  match api.chatProcess, api.pending, event with
  | some process, some (.count index), .counted count =>
    messagesCountLoaded settings storage callbacks index count process api
  | some process, some .slice, .page sliced messages =>
    messagesLoaded settings storage callbacks sliced messages process api
  | some process, some .file, .fileDone path env =>
    loadMessageFileDone settings storage callbacks path process { api with env }
  | some process, some .thumb, .fileDone path env =>
    loadMessageThumbDone settings storage callbacks path process { api with env }
  | _, _, _ => api

/-- The start of the export of a chat. -/
def requestMessages (info : DialogInfo) (env : Env) : ApiWrap Location Path Env where
  chatProcess := some { info }
  pending := some (.count 0)
  env := env

def run (info : DialogInfo) (env : Env) (events : List (Event Location Path Env)) :
    ApiWrap Location Path Env :=
  events.foldl (step settings storage callbacks) (requestMessages info env)

end ApiWrap

end Bettergram.Export
