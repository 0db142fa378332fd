import Bettergram.Foundation.Overwrite
import Mathlib.Logic.Function.Basic
import Mathlib.Data.Int.Init
import Mathlib.Data.List.Defs

/-! # Downloading files

Loaders of one queue ask for the parts of their files, from the data center of
the file or from a CDN, whose parts are checked against hashes. An answer is
handled by the loader that sent the request; then the loaders of the queue may
send more. `none` stands for a failed `Assert` or `Expects`.
-/

namespace Bettergram.Storage.FileDownload

open Foundation

def kDownloadCdnPartSize : ℕ := 128 * 1024
def kMaxFileQueries : ℤ := 16
def kDownloadSessionsCount : ℕ := 2
def kKeySize : ℕ := 32
def kIvecSize : ℕ := 16

def partSize : ℕ := kDownloadCdnPartSize

structure RequestData where
  dcId : ℕ
  dcIndex : ℕ
  offset : ℕ
deriving DecidableEq

/-- What is asked for, which decides the handlers of the request. -/
inductive Kind
  | file
  | webFile
  | cdnFile
  | reuploadCdnFile
  | cdnFileHashes
deriving DecidableEq

/-- A request that has no answer yet. -/
structure Flight where
  id : ℕ
  kind : Kind
  token : List UInt8
deriving DecidableEq

/-- A file reference that is being refreshed for a request. -/
structure Refresh where
  requestId : ℕ
  current : List UInt8
deriving DecidableEq

structure CdnParams where
  dcId : ℕ
  token : List UInt8
  encryptionKey : List UInt8
  encryptionIV : List UInt8
deriving DecidableEq

def CdnParams.none : CdnParams := ⟨0, [], [], []⟩

inductive ToCache
  | toFileOnly
  | toCacheAsWell
deriving DecidableEq

structure Loader where
  dcId : ℕ
  web : Bool
  fromLocalOnly : Bool
  hasFilename : Bool
  toCache : ToCache
  fileReference : List UInt8
  size : ℕ
  inQueue : Bool
  paused : Bool
  finished : Bool
  cancelled : Bool
  fileIsOpen : Bool
  file : List UInt8
  data : List UInt8
  lastComplete : Bool
  nextRequestOffset : ℕ
  sentRequests : List (ℕ × RequestData)
  cdn : CdnParams
  cdnFileHashes : ℕ → Option (List UInt8)
  cdnUncheckedParts : List (ℕ × List UInt8)
  cdnHashesRequestId : ℕ
  /-- The requests of the loader that have no answer yet. -/
  flight : List Flight
  /-- The file references that are being refreshed for it. -/
  refreshes : List Refresh
  /-- The parts from a CDN that were fed; nothing reads this. -/
  accepted : List (ℕ × List UInt8)

/-- What the loaders of a queue share: its count, the amounts of the downloader,
the next request id, and how many file operations were made. -/
structure Shared where
  queriesCount : ℤ
  requestedAmount : ℕ → ℕ → ℤ
  nextId : ℕ
  writes : ℕ

/-- A loader at work. -/
structure Turn where
  loader : Loader
  shared : Shared

/-- What is left to do after a handler: nothing, `notifyAboutProgress`, or that
and `requestMoreCdnFileHashes`. -/
inductive Next
  | quiet
  | notify
  | notifyThenHashes
deriving DecidableEq

/-- `std::map::emplace`: an entry that is there stays. -/
def emplace (key : ℕ) (value : List UInt8) : List (ℕ × List UInt8) → List (ℕ × List UInt8)
  | [] => [(key, value)]
  | entry :: rest =>
    if key < entry.1 then (key, value) :: entry :: rest
    else if key = entry.1 then entry :: rest
    else entry :: emplace key value rest

inductive CheckCdnHashResult
  | noHash
  | invalid
  | good
deriving DecidableEq

/-! ## Requests -/

namespace Shared

def requestedAmountIncrement (s : Shared) (dcId index : ℕ) (amount : ℤ) : Shared :=
  { s with
    requestedAmount := Function.update s.requestedAmount dcId
      (Function.update (s.requestedAmount dcId) index (s.requestedAmount dcId index + amount)) }

def chooseDcIndexForRequest (s : Shared) (dcId : ℕ) : ℕ :=
  (List.range' 1 (kDownloadSessionsCount - 1)).foldl
    (fun result i =>
      if s.requestedAmount dcId i < s.requestedAmount dcId result then i else result) 0

end Shared

def Loader.requestKind (l : Loader) : Kind :=
  if l.cdn.dcId ≠ 0 then .cdnFile else if l.web then .webFile else .file

/-- Whether `loadPart` sends a request. -/
def Loader.canLoad (l : Loader) : Bool :=
  !(l.finished || l.lastComplete || (l.sentRequests ≠ [] && l.size = 0)) &&
    !(l.size ≠ 0 && l.size ≤ l.nextRequestOffset)

namespace Turn

def prepareRequest (t : Turn) (offset : ℕ) : RequestData :=
  let dcId := if t.loader.cdn.dcId ≠ 0 then t.loader.cdn.dcId else t.loader.dcId
  { dcId
    dcIndex := if t.loader.size ≠ 0 then t.shared.chooseDcIndexForRequest dcId else 0
    offset }

/-- `MTP::send`: the request gets the next id. -/
def send (t : Turn) (kind : Kind) : Turn where
  loader :=
    { t.loader with flight := t.loader.flight ++ [⟨t.shared.nextId, kind, t.loader.cdn.token⟩] }
  shared := { t.shared with nextId := t.shared.nextId + 1 }

/-- Ids grow, so the new request is the last of the map. -/
def placeSentRequest (t : Turn) (requestId : ℕ) (data : RequestData) : Option Turn :=
  if t.loader.finished then none
  else
    let s := t.shared.requestedAmountIncrement data.dcId data.dcIndex partSize
    some
      { loader := { t.loader with sentRequests := t.loader.sentRequests ++ [(requestId, data)] }
        shared := { s with queriesCount := s.queriesCount + 1 } }

def finishSentRequestGetOffset (t : Turn) (requestId : ℕ) : Option (Turn × ℕ) :=
  (t.loader.sentRequests.find? fun entry => entry.1 = requestId).map fun entry =>
    let s := t.shared.requestedAmountIncrement entry.2.dcId entry.2.dcIndex (-partSize)
    ({ loader :=
        { t.loader with
          sentRequests := t.loader.sentRequests.filter fun other => other.1 ≠ requestId }
       shared := { s with queriesCount := s.queriesCount - 1 } }, entry.2.offset)

def sendAndPlace (t : Turn) (kind : Kind) (data : RequestData) : Option Turn :=
  (t.send kind).placeSentRequest t.shared.nextId data

def makeRequest (t : Turn) (offset : ℕ) : Option Turn :=
  if t.loader.finished then none
  else t.sendAndPlace t.loader.requestKind (t.prepareRequest offset)

def loadPart (t : Turn) : Option Turn :=
  if t.loader.canLoad then
    (t.makeRequest t.loader.nextRequestOffset).map fun t =>
      { t with
        loader := { t.loader with nextRequestOffset := t.loader.nextRequestOffset + partSize } }
  else some t

def requestMoreCdnFileHashes (t : Turn) : Option Turn :=
  if t.loader.finished then none
  else if t.loader.cdnHashesRequestId ≠ 0 then some t
  else
    match t.loader.cdnUncheckedParts with
    | [] => some t
    | first :: _ =>
      (t.sendAndPlace .cdnFileHashes ⟨t.loader.dcId, 0, first.1⟩).map fun t' =>
        { t' with loader := { t'.loader with cdnHashesRequestId := t.shared.nextId } }

/-- `MTP::cancel`: no answer comes any more. -/
def forget (t : Turn) (requestId : ℕ) : Turn :=
  { t with loader := { t.loader with flight := t.loader.flight.filter fun f => f.id ≠ requestId } }

/-- `while (!_sentRequests.empty())`: the first is cancelled and finished. -/
def finishAll : ℕ → Turn → Option (Turn × List ℕ)
  | 0, t => some (t, [])
  | n + 1, t =>
    match t.loader.sentRequests with
    | [] => some (t, [])
    | first :: _ =>
      ((t.forget first.1).finishSentRequestGetOffset first.1).bind fun finished =>
        (finishAll n finished.1).map fun rest => (rest.1, finished.2 :: rest.2)

def cancelRequests (t : Turn) : Option (Turn × List ℕ) :=
  finishAll t.loader.sentRequests.length t

/-- `cancel` up to `LoadNextFromQueue`. -/
def cancel (t : Turn) : Option Turn :=
  t.cancelRequests.map fun cleared =>
    { cleared.1 with
      loader :=
        { cleared.1.loader with
          cancelled := true
          finished := true
          file := if cleared.1.loader.fileIsOpen then [] else cleared.1.loader.file
          fileIsOpen := false
          data := []
          inQueue := false
          hasFilename := false } }

def makeRequests (t : Turn) (offsets : List ℕ) : Option Turn :=
  offsets.foldlM makeRequest t

def addCdnHashes (t : Turn) (hashes : List (ℕ × List UInt8)) : Turn :=
  { t with
    loader :=
      { t.loader with
        cdnFileHashes := hashes.foldl
          (fun known hash =>
            if (known hash.1).isSome then known else Function.update known hash.1 (some hash.2))
          t.loader.cdnFileHashes } }

def changeCDNParams (t : Turn) (offset : ℕ) (params : CdnParams)
    (hashes : List (ℕ × List UInt8)) : Option (Turn × Next) :=
  if params.dcId ≠ 0 ∧
      (params.encryptionKey.length ≠ kKeySize ∨ params.encryptionIV.length ≠ kIvecSize) then
    t.cancel.map fun t => (t, .notify)
  else
    let resendAllRequests := t.loader.cdn ≠ params
    let t := { t with loader := { t.loader with cdn := params } }.addCdnHashes hashes
    let resent :=
      if resendAllRequests ∧ t.loader.sentRequests ≠ [] then
        t.cancelRequests.bind fun cleared => cleared.1.makeRequests cleared.2
      else some t
    resent.bind fun t => (t.makeRequest offset).map fun t => (t, .quiet)

/-! ## Parts -/

section Parts

variable (disk : ℕ → Bool)

/-- One operation on the file of the loader; `disk` says which ones succeed. -/
def touchFile (t : Turn) : Turn × Bool :=
  ({ t with shared := { t.shared with writes := t.shared.writes + 1 } }, disk t.shared.writes)

/-- `resize` to at least that many bytes. -/
def resized (content : List UInt8) (size : ℕ) : List UInt8 :=
  content ++ List.replicate (size - content.length) 0

/-- The bytes in memory after a part of `feedPart`. -/
def feedData (data : List UInt8) (offset : ℕ) (buffer : List UInt8) : List UInt8 :=
  let data := if data.length < offset then resized data offset else data
  if offset = data.length then data ++ buffer
  else
    let data :=
      if data.length < offset + buffer.length then resized data (offset + buffer.length) else data
    overwrite data offset buffer

/-- The end of `feedPart`: the loader finishes when nothing is left to come. -/
def finishIfComplete (t : Turn) : Option (Turn × Bool) :=
  let l := t.loader
  if l.sentRequests = [] ∧ l.cdnUncheckedParts = [] ∧
      (l.lastComplete ∨ (l.size ≠ 0 ∧ l.size ≤ l.nextRequestOffset)) then
    let opened := if l.fileIsOpen then (t, true) else touchFile disk t
    let stored := touchFile disk opened.1
    if l.hasFilename ∧ l.toCache = .toCacheAsWell then
      if ¬(opened.2 = true) then opened.1.cancel.map fun t => (t, false)
      else if ¬(stored.2 = true) then stored.1.cancel.map fun t => (t, false)
      else
        some ({ stored.1 with
          loader := { stored.1.loader with
            file := stored.1.loader.data, finished := true, fileIsOpen := false, inQueue := false } },
          true)
    else
      some ({ t with
        loader := { l with finished := true, fileIsOpen := false, inQueue := false } }, true)
  else some (t, true)

def feedPart (t : Turn) (offset : ℕ) (buffer : List UInt8) : Option (Turn × Bool) :=
  if t.loader.finished then none
  else
    let touched := touchFile disk t
    let complete := t.loader.lastComplete || buffer.isEmpty || buffer.length % 1024 ≠ 0
    if buffer ≠ [] ∧ t.loader.fileIsOpen = true then
      if ¬(touched.2 = true) then touched.1.cancel.map fun t => (t, false)
      else
        finishIfComplete disk
          { touched.1 with
            loader := { touched.1.loader with
              file := overwrite (resized t.loader.file offset) offset buffer
              lastComplete := complete } }
    else
      finishIfComplete disk
        { t with
          loader := { t.loader with
            data := if buffer ≠ [] then feedData t.loader.data offset buffer else t.loader.data
            lastComplete := complete } }

def partLoaded (t : Turn) (offset : ℕ) (buffer : List UInt8) : Option (Turn × Next) :=
  (feedPart disk t offset buffer).map fun fed => (fed.1, .notify)

end Parts

section Answers

variable (disk : ℕ → Bool) (sha256 : List UInt8 → List UInt8)
  (aesCtr : List UInt8 → List UInt8 → ℕ → List UInt8 → List UInt8)

def checkCdnFileHash (l : Loader) (offset : ℕ) (buffer : List UInt8) : CheckCdnHashResult :=
  match l.cdnFileHashes offset with
  | none => .noHash
  | some hash => if sha256 buffer ≠ hash then .invalid else .good

def normalPartLoaded (t : Turn) (requestId : ℕ) (bytes : List UInt8) : Option (Turn × Next) :=
  if t.loader.finished then none
  else
    (t.finishSentRequestGetOffset requestId).bind fun finished =>
      finished.1.partLoaded disk finished.2 bytes

/-- `normalPartLoaded` with a redirect, and `switchToCDN`. -/
def switchToCDN (t : Turn) (requestId : ℕ) (params : CdnParams) (hashes : List (ℕ × List UInt8)) :
    Option (Turn × Next) :=
  if t.loader.finished then none
  else
    (t.finishSentRequestGetOffset requestId).bind fun finished =>
      finished.1.changeCDNParams finished.2 params hashes

def webPartLoaded (t : Turn) (requestId size : ℕ) (bytes : List UInt8) : Option (Turn × Next) :=
  (t.finishSentRequestGetOffset requestId).bind fun finished =>
    let t := finished.1
    if t.loader.size = 0 then
      { t with loader := { t.loader with size := size } }.partLoaded disk finished.2 bytes
    else if size ≠ t.loader.size then t.cancel.map fun t => (t, .notify)
    else t.partLoaded disk finished.2 bytes

/-- `cdnPartLoaded` when the file has to be put to the CDN again. -/
def cdnReuploadNeeded (t : Turn) (requestId : ℕ) : Option (Turn × Next) :=
  if t.loader.finished then none
  else
    (t.finishSentRequestGetOffset requestId).bind fun finished =>
      (finished.1.sendAndPlace .reuploadCdnFile ⟨t.loader.dcId, 0, finished.2⟩).map fun t =>
        (t, .quiet)

def cdnPartLoaded (t : Turn) (requestId : ℕ) (bytes : List UInt8) : Option (Turn × Next) :=
  if t.loader.finished then none
  else
    (t.finishSentRequestGetOffset requestId).bind fun finished =>
      let t := finished.1
      let offset := finished.2
      let key := t.loader.cdn.encryptionKey
      let iv := t.loader.cdn.encryptionIV
      if key.length ≠ kKeySize ∨ iv.length ≠ kIvecSize then none
      else
        let buffer := aesCtr key iv (offset / 16) bytes
        match checkCdnFileHash sha256 t.loader offset buffer with
        | .noHash =>
          let t := { t with
            loader := { t.loader with
              cdnUncheckedParts := emplace offset buffer t.loader.cdnUncheckedParts } }
          t.requestMoreCdnFileHashes.map fun t => (t, .quiet)
        | .invalid => t.cancel.map fun t => (t, .notify)
        | .good =>
          { t with loader := { t.loader with accepted := t.loader.accepted ++ [(offset, buffer)] }
            }.partLoaded disk offset buffer

def reuploadDone (t : Turn) (requestId : ℕ) (hashes : List (ℕ × List UInt8)) :
    Option (Turn × Next) :=
  (t.finishSentRequestGetOffset requestId).bind fun finished =>
    ((finished.1.addCdnHashes hashes).makeRequest finished.2).map fun t => (t, .quiet)

/-- How the loop over the unchecked parts ends: it returns from the handler, or
it got through, with some part checked or none. -/
inductive Checked
  | returned
  | through (someMoreChecked : Bool)

/-- The loop of `getCdnFileHashesDone` over the parts it has not seen yet. -/
def checkParts : List (ℕ × List UInt8) → Bool → Turn → Option (Turn × Checked)
  | [], someMoreChecked, t => some (t, .through someMoreChecked)
  | part :: rest, someMoreChecked, t =>
    match checkCdnFileHash sha256 t.loader part.1 part.2 with
    | .noHash => checkParts rest someMoreChecked t
    | .invalid => t.cancel.map fun t => (t, .returned)
    | .good =>
      let t := { t with
        loader := { t.loader with
          cdnUncheckedParts := t.loader.cdnUncheckedParts.filter fun other => other.1 ≠ part.1
          accepted := t.loader.accepted ++ [part] } }
      (feedPart disk t part.1 part.2).bind fun fed =>
        if fed.2 = false ∨ fed.1.loader.finished = true then some (fed.1, .returned)
        else checkParts rest true fed.1

def getCdnFileHashesDone (t : Turn) (requestId : ℕ) (hashes : List (ℕ × List UInt8)) :
    Option (Turn × Next) :=
  if t.loader.finished ∨ t.loader.cdnHashesRequestId ≠ requestId then none
  else
    ({ t with loader := { t.loader with cdnHashesRequestId := 0 } }.finishSentRequestGetOffset
      requestId).bind fun finished =>
        let t := finished.1.addCdnHashes hashes
        (checkParts disk sha256 t.loader.cdnUncheckedParts false t).bind fun checked =>
          match checked.2 with
          | .returned => some (checked.1, .notify)
          | .through true => some (checked.1, .notifyThenHashes)
          | .through false => checked.1.cancel.map fun t => (t, .notify)

/-- The errors that the network layer does not handle itself. -/
inductive Error
  | fileReference
  | token
  | other
deriving DecidableEq

def partFailed (t : Turn) (requestId : ℕ) (error : Error) : Option (Turn × Next) :=
  if error = .fileReference then
    some ({ t with
      loader := { t.loader with
        refreshes := t.loader.refreshes ++ [⟨requestId, t.loader.fileReference⟩] } }, .quiet)
  else t.cancel.map fun t => (t, .notify)

def cdnPartFailed (t : Turn) (requestId : ℕ) (error : Error) : Option (Turn × Next) :=
  let t := { t with
    loader := { t.loader with
      cdnHashesRequestId :=
        if requestId = t.loader.cdnHashesRequestId then 0 else t.loader.cdnHashesRequestId } }
  if error = .token then
    (t.finishSentRequestGetOffset requestId).bind fun finished =>
      finished.1.changeCDNParams finished.2 .none []
  else t.partFailed requestId error

def refreshFileReferenceFrom (t : Turn) (requestId : ℕ) (updated current : List UInt8) :
    Option (Turn × Next) :=
  if updated = [] ∨ updated = current then t.cancel.map fun t => (t, .notify)
  else
    let t := { t with loader := { t.loader with fileReference := updated } }
    (t.finishSentRequestGetOffset requestId).bind fun finished =>
      (finished.1.makeRequest finished.2).map fun t => (t, .quiet)

inductive Answer
  | file (bytes : List UInt8)
  | fileCdnRedirect (params : CdnParams) (hashes : List (ℕ × List UInt8))
  | webFile (size : ℕ) (bytes : List UInt8)
  | cdnFile (bytes : List UInt8)
  | cdnFileReuploadNeeded
  | fileHashes (hashes : List (ℕ × List UInt8))
  | failed (error : Error)

/-- The handler for an answer; a request gets no answer of another type. -/
def handle (t : Turn) (f : Flight) (answer : Answer) : Option (Turn × Next) :=
  match f.kind, answer with
  | .file, .file bytes => t.normalPartLoaded disk f.id bytes
  | .file, .fileCdnRedirect params hashes => t.switchToCDN f.id params hashes
  | .webFile, .webFile size bytes => t.webPartLoaded disk f.id size bytes
  | .cdnFile, .cdnFile bytes => t.cdnPartLoaded disk sha256 aesCtr f.id bytes
  | .cdnFile, .cdnFileReuploadNeeded => t.cdnReuploadNeeded f.id
  | .reuploadCdnFile, .fileHashes hashes => t.reuploadDone f.id hashes
  | .cdnFileHashes, .fileHashes hashes => t.getCdnFileHashesDone disk sha256 f.id hashes
  | .file, .failed error => t.partFailed f.id error
  | .webFile, .failed error => t.partFailed f.id error
  | .cdnFile, .failed error => t.cdnPartFailed f.id error
  | .reuploadCdnFile, .failed error => t.cdnPartFailed f.id error
  | .cdnFileHashes, .failed error => t.cdnPartFailed f.id error
  | _, _ => some (t, .quiet)

def Answer.fits (kind : Kind) : Answer → Bool
  | .file _ => kind = .file
  | .fileCdnRedirect _ _ => kind = .file
  | .webFile _ _ => kind = .webFile
  | .cdnFile _ => kind = .cdnFile
  | .cdnFileReuploadNeeded => kind = .cdnFile
  | .fileHashes _ => kind = .reuploadCdnFile ∨ kind = .cdnFileHashes
  | .failed _ => true

end Answers

end Turn

/-! ## The loaders of a queue -/

structure World (ι : Type) where
  loaders : ι → Loader
  queue : List ι
  shared : Shared

inductive Event (ι : Type)
  | start (i : ι) (loadFirst prior : Bool) (position : ℕ)
  | pause (i : ι)
  | cancel (i : ι)
  | answer (i : ι) (requestId : ℕ) (answer : Turn.Answer)
  | refresh (i : ι) (requestId : ℕ) (updated : List UInt8)

namespace World

variable {ι : Type} [DecidableEq ι]

def turn (w : World ι) (i : ι) : Turn := ⟨w.loaders i, w.shared⟩

def put (w : World ι) (i : ι) (t : Turn) : World ι :=
  { w with loaders := Function.update w.loaders i t.loader, shared := t.shared }

/-- The loader loads parts until it has none or the queue is full. -/
def loadWhile (i : ι) : ℕ → World ι → Option (World ι)
  | 0, w => some w
  | n + 1, w =>
    if (w.loaders i).canLoad then
      (w.turn i).loadPart.bind fun t =>
        if kMaxFileQueries ≤ t.shared.queriesCount then some (w.put i t)
        else loadWhile i n (w.put i t)
    else some w

/-- One loader of the loop; the number of rounds is what the queue has free. -/
def loadOne (w : World ι) (i : ι) : Option (World ι) :=
  if ¬((w.loaders i).inQueue = true) ∨ kMaxFileQueries ≤ w.shared.queriesCount then some w
  else loadWhile i (kMaxFileQueries - w.shared.queriesCount).toNat w

def loadNextFromQueue (w : World ι) : Option (World ι) := w.queue.foldlM loadOne w

/-- The end of a handler of loader `i`. -/
def settle (w : World ι) (i : ι) (result : Turn × Next) : Option (World ι) :=
  match result.2 with
  | .quiet => some (w.put i result.1)
  | .notify => (w.put i result.1).loadNextFromQueue
  | .notifyThenHashes =>
    (w.put i result.1).loadNextFromQueue.bind fun w =>
      (w.turn i).requestMoreCdnFileHashes.map fun t => w.put i t

variable (disk : ℕ → Bool) (sha256 : List UInt8 → List UInt8)
  (aesCtr : List UInt8 → List UInt8 → ℕ → List UInt8 → List UInt8)

/-- The loader goes to some place of the queue; then it may load a part. -/
def enqueue (w : World ι) (i : ι) (t : Turn) (loadFirst prior : Bool) (position : ℕ) :
    Option (World ι) :=
  let others := w.queue.erase i
  let w := { w with queue := others.take position ++ i :: others.drop position }
  let t := { t with loader := { t.loader with inQueue := true } }
  if (kMaxFileQueries ≤ t.shared.queriesCount ∧ (!loadFirst || !prior) = true) ∨
      t.loader.finished = true then
    some (w.put i t)
  else t.loadPart.map fun t => w.put i t

/-- `FileLoader::start`, after the look at the local data. -/
def start (w : World ι) (i : ι) (loadFirst prior : Bool) (position : ℕ) : Option (World ι) :=
  let l := { w.loaders i with paused := false }
  let t : Turn := ⟨l, w.shared⟩
  if l.finished then some (w.put i t)
  else if l.fromLocalOnly then t.cancel.bind fun t => w.settle i (t, .notify)
  else if l.hasFilename ∧ l.toCache = .toFileOnly ∧ ¬(l.fileIsOpen = true) then
    let opened := Turn.touchFile disk t
    if opened.2 then
      w.enqueue i { opened.1 with loader := { opened.1.loader with fileIsOpen := true, file := [] } }
        loadFirst prior position
    else opened.1.cancel.bind fun t => w.settle i (t, .notify)
  else w.enqueue i t loadFirst prior position

def step (w : World ι) : Event ι → Option (World ι)
  | .start i loadFirst prior position => w.start disk i loadFirst prior position
  | .pause i =>
    some (w.put i ⟨{ w.loaders i with inQueue := false, paused := true }, w.shared⟩)
  | .cancel i => (w.turn i).cancel.bind fun t => w.settle i (t, .notify)
  | .answer i requestId answer =>
    match (w.loaders i).flight.find? fun f => f.id = requestId with
    | none => some w
    | some f =>
      if answer.fits f.kind then
        (((w.turn i).forget f.id).handle disk sha256 aesCtr f answer).bind (w.settle i)
      else some w
  | .refresh i requestId updated =>
    match (w.loaders i).refreshes.find? fun r => r.requestId = requestId with
    | none => some w
    | some r =>
      let l := { w.loaders i with refreshes := (w.loaders i).refreshes.erase r }
      ((⟨l, w.shared⟩ : Turn).refreshFileReferenceFrom requestId updated r.current).bind
        (w.settle i)

def run (w : World ι) (events : List (Event ι)) : Option (World ι) :=
  events.foldlM (step disk sha256 aesCtr) w

end World

end Bettergram.Storage.FileDownload
