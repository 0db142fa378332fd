import Bettergram.Media.Streaming.Slice

/-! # The slices of a reader

The header is what is needed to open the file. Small files are held in it
wholly; for others the parts that come before it is complete are put in it and
in their slices. Only the slices used last stay in memory.
-/

namespace Bettergram.Media.Streaming

inductive HeaderMode
  | Unknown
  | Small
  | Good
  | Full
  | NoCache
  deriving DecidableEq

structure Slices where
  data : List Slice := []
  header : Slice := {}
  usedSlices : List ℕ := []
  size : ℕ
  headerMode : HeaderMode := .Unknown
  deriving DecidableEq

/-- Number 0 is the header, number `i + 1` the slice `i`. -/
structure SerializedSlice where
  number : ℕ
  data : Bytes
  deriving DecidableEq

/-- `filled` are the bytes in the buffer. -/
structure FillResult where
  sliceNumbersFromCache : List ℕ := []
  offsetsFromLoader : List ℕ := []
  toCache : Option SerializedSlice := none
  filled : Option Bytes := none
  deriving DecidableEq

namespace Slices

def isFullInHeader (s : Slices) : Prop := s.size ≤ kMaxOnlyInHeader

instance (s : Slices) : Decidable s.isFullInHeader := inferInstanceAs (Decidable (_ ≤ _))

/-- The slices of a new reader; a failed `Expects` or `Assert` is `none` here and below. -/
def new (size : ℕ) (useCache : Bool) : Option Slices :=
  if 0 < size then
    some {
      size := size
      header := { loadingFromCache := useCache }
      headerMode := if useCache then .Unknown else .NoCache
      data := if size ≤ kMaxOnlyInHeader then []
        else List.replicate ((size + kInSlice - 1) / kInSlice) {} }
  else none

def headerModeUnknown (s : Slices) : Prop := s.headerMode = .Unknown

def isGoodHeader (s : Slices) : Prop := s.headerMode = .Good

instance (s : Slices) : Decidable s.headerModeUnknown := inferInstanceAs (Decidable (_ = _))

instance (s : Slices) : Decidable s.isGoodHeader := inferInstanceAs (Decidable (_ = _))

def computeIsGoodHeader (s : Slices) : Prop :=
  ¬s.isFullInHeader ∧
    (s.header.parts.dropWhile fun part => part.1 < kInSlice).length ≤ kPartsOutsideFirstSliceGood

instance (s : Slices) : Decidable s.computeIsGoodHeader := inferInstanceAs (Decidable (_ ∧ _))

def headerDone (fromCache : Bool) (s : Slices) : Option Slices :=
  if s.headerMode ≠ .Unknown then some s
  else
    let s := { s with headerMode :=
      if s.isFullInHeader then .Full else if s.computeIsGoodHeader then .Good else .Small }
    if fromCache then some s
    else if s.data.all fun slice => !slice.loadingFromCache && !slice.loadedFromCache then
      some { s with data := s.data.map fun slice => { slice with loadedFromCache := true } }
    else none

def headerWontBeFilled (s : Slices) : Prop :=
  s.headerModeUnknown ∧ kMaxPartsInHeader ≤ s.header.parts.length

instance (s : Slices) : Decidable s.headerWontBeFilled := inferInstanceAs (Decidable (_ ∧ _))

/-- An access to a slice and what is done with it. -/
def modifySlice (index : ℕ) (action : Slice → Option Slice) (s : Slices) : Option Slices := do
  let slice ← s.data[index]?
  let slice ← action slice
  some { s with data := s.data.set index slice }

/-- Puts the parts in front that belong to the slices below a bound in their slices. -/
def applyWhile (bound : ℕ) : Parts → Slices → Option Slices
  | [], s => some s
  | (offset, bytes) :: parts, s =>
    let index := offset / kInSlice
    if index < bound then do
      let s ← s.modifySlice index fun slice => slice.addPart (offset - index * kInSlice) bytes
      applyWhile bound parts s
    else some s

def applyHeaderCacheData (s : Slices) : Option Slices :=
  if s.header.parts = [] then some s
  else if s.headerMode = .Good then applyWhile 1 s.header.parts s
  else if s.headerMode ≠ .Unknown then some s
  else if s.isFullInHeader then s.headerDone true
  else (applyWhile s.data.length s.header.parts s).bind (headerDone true)

def maxSliceSize (sliceNumber : ℕ) (s : Slices) : ℕ :=
  if sliceNumber = 0 then s.size
  else if sliceNumber = s.data.length then s.size - (sliceNumber - 1) * kInSlice
  else kInSlice

/-- `processCacheResult` for a slice other than the header. -/
def processSliceResult (sliceNumber : ℕ) (result : Bytes) (s : Slices) : Option Slices :=
  s.modifySlice (sliceNumber - 1) fun slice =>
    if slice.loadingFromCache then
      (slice.processCacheData result (s.maxSliceSize sliceNumber)).map Prod.snd
    else some slice

/-- `processCacheResult` for the header, once it is known that it was wanted. -/
def processHeaderResult (result : Bytes) (s : Slices) : Option Slices :=
  if s.header.loadingFromCache then do
    let (remaining, header) ← s.header.processCacheData result (s.maxSliceSize 0)
    let s ← applyHeaderCacheData { s with header := header }
    if s.isGoodHeader then do
      let s ← s.modifySlice 0 fun slice => some { slice with loadingFromCache := true }
      s.processSliceResult 1 remaining
    else some s
  else some s

def processCacheResult (sliceNumber : ℕ) (result : Bytes) (s : Slices) : Option Slices :=
  if sliceNumber ≤ s.data.length then
    if sliceNumber = 0 then
      if s.isGoodHeader then do
        let first ← s.data[0]?
        if first.loadingFromCache then
          let header := { s.header with loadingFromCache := true, loadedFromCache := false }
          processHeaderResult result { s with header := header }
        else some s
      else s.processHeaderResult result
    else s.processSliceResult sliceNumber result
  else none

def addToHeader (offset : ℕ) (bytes : Bytes) (s : Slices) : Option Slices :=
  (s.header.addPart offset bytes).map fun header => { s with header := header }

def processPart (offset : ℕ) (bytes : Bytes) (s : Slices) : Option Slices :=
  let index := offset / kInSlice
  let addToSlice := fun s : Slices =>
    s.modifySlice index fun slice => slice.addPart (offset - index * kInSlice) bytes
  if s.isFullInHeader then s.addToHeader offset bytes
  else if s.data.length ≤ index then none
  else if s.headerMode = .Unknown then
    if s.header.parts.contains offset then some s
    else if s.header.parts.length < kMaxPartsInHeader then
      (s.addToHeader offset bytes).bind addToSlice
    else addToSlice s
  else addToSlice s

/-! ## Unloading -/

/-- A slice that was used moves to the end. -/
def markSliceUsed (sliceIndex : ℕ) (s : Slices) : Slices :=
  { s with usedSlices := s.usedSlices.erase sliceIndex ++ [sliceIndex] }

/-- Makes sure the data is not taken for plain bytes; this ends after two rounds at most. -/
def appendZeros (maxSize : ℕ) : ℕ → Bytes → Bytes
  | 0, data => data
  | rounds + 1, data =>
    if IsContiguousSerialization data.length maxSize then appendZeros maxSize rounds (data ++ [0])
    else data

def serializeAndUnloadFirstSliceNoHeader (s : Slices) : Option (Bytes × Slices) := do
  let slice ← s.data[0]?
  if slice.loadedFromCache then
    let slice := { slice with parts := slice.parts.filter fun part =>
      !s.header.parts.contains part.1 }
    some (serializeComplexSlice slice, { s with data := s.data.set 0 {} })
  else none

/-- The parts of a slice, plain when they follow on each other from the begin on. -/
def serializeSlice (slice : Slice) (maxSize : ℕ) : Option Bytes := do
  let back ← slice.parts.getLast?
  if back.1 < FindNotLoadedStart slice.parts 0 then
    some (slice.parts.flatMap fun part => part.2)
  else some (appendZeros maxSize 3 (serializeComplexSlice slice))

/-- The header alone, or together with the first slice when the header is good. The header stays
loaded. -/
def serializeHeader (s : Slices) : Option (SerializedSlice × Slices) := do
  if s.isGoodHeader then
    if s.header.parts = [] then none
    else
      let (first, s) ← s.serializeAndUnloadFirstSliceNoHeader
      let data := appendZeros (s.maxSliceSize 0) 3 (serializeComplexSlice s.header ++ first)
      some (⟨0, data⟩, { s with header := { s.header with changedSinceCache := false } })
  else
    let data ← serializeSlice s.header (s.maxSliceSize 0)
    some (⟨0, data⟩, { s with header := { s.header with changedSinceCache := false } })

def serializeAndUnloadSlice (sliceNumber : ℕ) (s : Slices) : Option (SerializedSlice × Slices) :=
  if s.headerMode ≠ .Unknown ∧ s.headerMode ≠ .NoCache ∧ sliceNumber ≤ s.data.length then
    if sliceNumber = 0 ∨ (s.isGoodHeader ∧ sliceNumber = 1) then s.serializeHeader
    else do
      let slice ← s.data[sliceNumber - 1]?
      let data ← serializeSlice slice (s.maxSliceSize sliceNumber)
      some (⟨sliceNumber, data⟩, { s with data := s.data.set (sliceNumber - 1) {} })
  else none

def serializeAndUnloadUnused (s : Slices) : Option (Option SerializedSlice × Slices) :=
  if s.headerMode = .Unknown then some (none, s)
  else
    match s.usedSlices with
    | [] => some (none, s)
    | purgeSlice :: usedSlices =>
      if s.usedSlices.length ≤ kSlicesInMemory then some (none, s)
      else do
        let s := { s with usedSlices := usedSlices }
        let slice ← s.data[purgeSlice]?
        -- the only data in a slice that was not loaded is from the header
        if ¬slice.loadedFromCache then some (none, s)
        else if s.headerMode = .NoCache ∨ ¬slice.changedSinceCache then
          some (none, { s with data := s.data.set purgeSlice {} })
        else
          let (toCache, s) ← s.serializeAndUnloadSlice (purgeSlice + 1)
          some (some toCache, s)

def unloadToCache (s : Slices) : Option (Option SerializedSlice × Slices) :=
  if s.headerMode = .Unknown ∨ s.headerMode = .NoCache then some (none, s)
  else
    let number :=
      if s.header.changedSinceCache then some 0
      else (s.data.findIdx? fun slice => slice.changedSinceCache).map (· + 1)
    match number with
    | none => some (none, s)
    | some number =>
      (s.serializeAndUnloadSlice number).map fun (toCache, s) => (some toCache, s)

/-! ## Filling -/

def fillFromHeader (offset length : ℕ) (s : Slices) : Option FillResult :=
  let till := offset + length
  let prepared := s.header.prepareFill offset till
  let offsets := prepared.offsetsFromLoader.foldl (fun result full =>
    if full < s.size then (addValue kLoadFromRemoteMax full result).2 else result) []
  if prepared.ready then
    (CopyLoaded prepared.loaded offset till).map fun bytes =>
      { offsetsFromLoader := offsets, filled := some bytes }
  else some { offsetsFromLoader := offsets }

def cacheNotLoaded (slice : Slice) (s : Slices) : Prop :=
  s.headerMode ≠ .NoCache ∧ s.headerMode ≠ .Unknown ∧ ¬slice.loadedFromCache

instance (slice : Slice) (s : Slices) : Decidable (s.cacheNotLoaded slice) :=
  inferInstanceAs (Decidable (_ ∧ _))

/-- The offsets to load from the remote, in the file. -/
def handlePrepareResult (sliceIndex : ℕ) (slice : Slice) (prepared : PrepareFillResult)
    (s : Slices) (offsets : List ℕ) : List ℕ :=
  if s.cacheNotLoaded slice then offsets
  else
    prepared.offsetsFromLoader.foldl (fun result offset =>
      let full := offset + sliceIndex * kInSlice
      if offset < kInSlice ∧ full < s.size then (addValue kLoadFromRemoteMax full result).2
      else result) offsets

def handleReadFromCache (sliceIndex : ℕ) (s : Slices) (numbers : List ℕ) :
    Option (List ℕ × Slices) := do
  let slice ← s.data[sliceIndex]?
  if s.cacheNotLoaded slice ∧ ¬slice.loadingFromCache then
    some ((addValue kReadFromCacheMax (sliceIndex + 1) numbers).2,
      { s with data := s.data.set sliceIndex { slice with loadingFromCache := true } })
  else some (numbers, s)

/-- `fill` within one slice. -/
def fillOne (sliceIndex start till : ℕ) (s : Slices) : Option (FillResult × Slices) := do
  let slice ← s.data[sliceIndex]?
  let prepared := slice.prepareFill start till
  let offsets := s.handlePrepareResult sliceIndex slice prepared []
  if prepared.ready then
    let s := s.markSliceUsed sliceIndex
    let bytes ← CopyLoaded prepared.loaded start till
    let (toCache, s) ← s.serializeAndUnloadUnused
    some ({ offsetsFromLoader := offsets, toCache := toCache, filled := some bytes }, s)
  else
    let (numbers, s) ← s.handleReadFromCache sliceIndex []
    some ({ offsetsFromLoader := offsets, sliceNumbersFromCache := numbers }, s)

/-- `fill` from the end of one slice to the begin of the next. -/
def fillTwo (sliceIndex start till : ℕ) (s : Slices) : Option (FillResult × Slices) := do
  let slice ← s.data[sliceIndex]?
  let next ← s.data[sliceIndex + 1]?
  let first := slice.prepareFill start kInSlice
  let second := next.prepareFill 0 till
  let offsets := s.handlePrepareResult sliceIndex slice first []
  let offsets := s.handlePrepareResult (sliceIndex + 1) next second offsets
  if first.ready ∧ second.ready then
    let s := (s.markSliceUsed sliceIndex).markSliceUsed (sliceIndex + 1)
    let bytes ← CopyLoaded first.loaded start kInSlice
    let more ← CopyLoaded second.loaded 0 till
    let (toCache, s) ← s.serializeAndUnloadUnused
    some ({ offsetsFromLoader := offsets, toCache := toCache, filled := some (bytes ++ more) }, s)
  else
    let (numbers, s) ← s.handleReadFromCache sliceIndex []
    let (numbers, s) ← s.handleReadFromCache (sliceIndex + 1) numbers
    some ({ offsetsFromLoader := offsets, sliceNumbersFromCache := numbers }, s)

def fill (offset length : ℕ) (s : Slices) : Option (FillResult × Slices) :=
  let till := offset + length
  let fromSlice := offset / kInSlice
  let tillSlice := (till + kInSlice - 1) / kInSlice
  if ¬(0 < length ∧ offset < s.size ∧ till ≤ s.size ∧ length ≤ kInSlice) then none
  else if s.headerMode ≠ .NoCache ∧ ¬s.header.loadedFromCache then
    -- waiting for the header
    if s.header.loadingFromCache then some ({}, s) else none
  else if s.isFullInHeader then (s.fillFromHeader offset length).map fun result => (result, s)
  else if ¬((fromSlice + 1 = tillSlice ∨ fromSlice + 2 = tillSlice) ∧
      tillSlice ≤ s.data.length) then none
  else if fromSlice + 1 < tillSlice then
    s.fillTwo fromSlice (offset - fromSlice * kInSlice) (till - (fromSlice + 1) * kInSlice)
  else
    s.fillOne fromSlice (offset - fromSlice * kInSlice) (min kInSlice (till - fromSlice * kInSlice))

end Slices

end Bettergram.Media.Streaming
