import Bettergram.Storage.SparseIdsList
import Mathlib.Data.Finset.Sort

/-! # The builder of a slice of message ids

The builder keeps the ids around a key, cut to its limits, and the numbers of
messages in the whole list, before the ids and behind them, as far as they are
known.
-/

namespace Bettergram.Data
open Storage

inductive LoadDirection
  | Around
  | Before
  | After
  deriving DecidableEq

structure AroundData where
  aroundId : MsgId := 0
  direction : LoadDirection := .Around
  deriving DecidableEq

structure SparseIdsListResult where
  count : Option ℤ := none
  skippedBefore : Option ℤ := none
  skippedAfter : Option ℤ := none
  messageIds : Finset MsgId := ∅

/-- The messages may be missing, other than in an update the list fires. -/
structure SliceUpdate where
  messages : Option (Finset MsgId) := none
  range : MsgRange := {}
  count : Option ℤ := none

/-- `insufficientAround` collects the events that were fired. -/
structure SparseIdsSliceBuilder where
  key : MsgId
  limitBefore : ℤ
  limitAfter : ℤ
  ids : Finset MsgId := ∅
  range : MsgRange := {}
  fullCount : Option ℤ := none
  skippedBefore : Option ℤ := none
  skippedAfter : Option ℤ := none
  insufficientAround : List AroundData := []
  deriving DecidableEq

/-! ## Sorted ids -/

def front (ids : Finset MsgId) : Option MsgId :=
  if h : ids.Nonempty then some (ids.min' h) else none

def back (ids : Finset MsgId) : Option MsgId :=
  if h : ids.Nonempty then some (ids.max' h) else none

/-- The number of ids before the place of an id. -/
def indexOf (id : MsgId) (ids : Finset MsgId) : ℕ := (ids.filter (· < id)).card

/-- `erase` from the begin; `none` is behind the end. -/
def eraseFromBegin (n : ℤ) (ids : Finset MsgId) : Option (Finset MsgId) :=
  if n ≤ ids.card then some ((ids.sort (· ≤ ·)).drop n.toNat).toFinset else none

def eraseFromEnd (n : ℤ) (ids : Finset MsgId) : Option (Finset MsgId) :=
  if n ≤ ids.card then some ((ids.sort (· ≤ ·)).take (ids.card - n.toNat)).toFinset else none

namespace SparseIdsSliceBuilder

def requestMessages (direction : LoadDirection) (b : SparseIdsSliceBuilder) :
    SparseIdsSliceBuilder :=
  let around : AroundData :=
    if b.ids = ∅ then ⟨b.key, .Around⟩
    else if direction = .Before then ⟨(front b.ids).getD 0, .Before⟩
    else ⟨(back b.ids).getD 0, .After⟩
  { b with insufficientAround := b.insufficientAround ++ [around] }

def requestMessagesCount (b : SparseIdsSliceBuilder) : SparseIdsSliceBuilder :=
  { b with insufficientAround := b.insufficientAround ++ [⟨0, .Around⟩] }

/-- Cuts the ids before the key; the flag says whether messages were requested. -/
def sliceBefore (removeFromBegin : ℤ) (b : SparseIdsSliceBuilder) :
    Option (Bool × SparseIdsSliceBuilder) :=
  if 0 < removeFromBegin then
    (eraseFromBegin removeFromBegin b.ids).map fun ids =>
      (false, { b with ids := ids, skippedBefore := b.skippedBefore.map (· + removeFromBegin) })
  else if removeFromBegin < 0 ∧ b.skippedBefore.all (0 < ·) then
    some (true, b.requestMessages .Before)
  else some (false, b)

def sliceAfter (removeFromEnd : ℤ) (b : SparseIdsSliceBuilder) :
    Option (Bool × SparseIdsSliceBuilder) :=
  if 0 < removeFromEnd then
    (eraseFromEnd removeFromEnd b.ids).map fun ids =>
      (false, { b with ids := ids, skippedAfter := b.skippedAfter.map (· + removeFromEnd) })
  else if removeFromEnd < 0 ∧ b.skippedAfter.all (0 < ·) then
    some (true, b.requestMessages .After)
  else some (false, b)

def sliceToLimits (b : SparseIdsSliceBuilder) : Option SparseIdsSliceBuilder :=
  if b.key = 0 then some (if b.fullCount.isNone then b.requestMessagesCount else b)
  else do
    let around : ℤ := indexOf b.key b.ids
    let removeFromBegin := around - b.limitBefore
    let removeFromEnd := b.ids.card - around - b.limitAfter - 1
    let (requestedBefore, b) ← b.sliceBefore removeFromBegin
    let (requestedAfter, b) ← b.sliceAfter removeFromEnd
    some (if b.fullCount.isNone ∧ ¬requestedBefore ∧ ¬requestedAfter then b.requestMessagesCount
      else b)

def checkInsufficient (b : SparseIdsSliceBuilder) : Option SparseIdsSliceBuilder := b.sliceToLimits

def fillSkipped (b : SparseIdsSliceBuilder) : SparseIdsSliceBuilder :=
  match b.fullCount, b.skippedBefore, b.skippedAfter with
  | some full, some skipped, none => { b with skippedAfter := some (full - skipped - b.ids.card) }
  | some full, none, some skipped => { b with skippedBefore := some (full - skipped - b.ids.card) }
  | _, _, _ => b

def fillSkippedAndSliceToLimits (b : SparseIdsSliceBuilder) : Option SparseIdsSliceBuilder :=
  b.fillSkipped.sliceToLimits

/-- `none` is a failed `Assert`. -/
def adjustSkippedBefore (oldId : MsgId) (oldSkippedBefore : ℤ) (ids : Finset MsgId) : Option ℤ :=
  if oldId ∈ ids then some (max (oldSkippedBefore - indexOf oldId ids) 0) else none

def adjustSkippedAfter (oldId : MsgId) (oldSkippedAfter : ℤ) (ids : Finset MsgId) : Option ℤ :=
  if oldId ∈ ids then some (max (oldSkippedAfter - (ids.card - indexOf oldId ids - 1)) 0) else none

/-- What is skipped once the ids are merged: by what came with them, or else by what was known
while there were ids. -/
def skippedAfterMerge (adjust : MsgId → ℤ → Finset MsgId → Option ℤ) (newId : Option MsgId)
    (newSkipped : Option ℤ) (wasId : MsgId) (wasSkipped : Option ℤ) (ids : Finset MsgId) :
    Option (Option ℤ) :=
  match newSkipped with
  | some skipped => do some (← adjust (← newId) skipped ids)
  | none =>
    match wasSkipped with
    | some skipped => if 0 ≤ wasId then (adjust wasId skipped ids).map some else some none
    | none => some none

/-- An update without ids. -/
def mergeCount (count : Option ℤ) (b : SparseIdsSliceBuilder) : SparseIdsSliceBuilder :=
  match count with
  | none => b
  | some full =>
    if b.fullCount = some full then b
    else if full ≤ b.ids.card then
      { b with fullCount := some (b.ids.card : ℤ), skippedBefore := some 0, skippedAfter := some 0 }
    else { b with fullCount := some full }

def mergeSliceData (count : Option ℤ) (messageIds : Finset MsgId)
    (skippedBefore skippedAfter : Option ℤ) (b : SparseIdsSliceBuilder) :
    Option SparseIdsSliceBuilder :=
  if messageIds = ∅ then (b.mergeCount count).fillSkippedAndSliceToLimits
  else do
    let wasMinId := (front b.ids).getD (-1)
    let wasMaxId := (back b.ids).getD (-1)
    let ids := b.ids ∪ messageIds
    let before ← skippedAfterMerge adjustSkippedBefore (front messageIds) skippedBefore wasMinId
      b.skippedBefore ids
    let after ← skippedAfterMerge adjustSkippedAfter (back messageIds) skippedAfter wasMaxId
      b.skippedAfter ids
    { b with
      ids := ids
      fullCount := count.or b.fullCount
      skippedBefore := before
      skippedAfter := after }.fillSkippedAndSliceToLimits

def applyInitial (result : SparseIdsListResult) (b : SparseIdsSliceBuilder) :
    Option (Bool × SparseIdsSliceBuilder) :=
  (b.mergeSliceData result.count result.messageIds result.skippedBefore result.skippedAfter).map
    (true, ·)

def intersects (range1 range2 : MsgRange) : Prop :=
  range1.fromId ≤ range2.till ∧ range2.fromId ≤ range1.till

instance (range1 range2 : MsgRange) : Decidable (intersects range1 range2) :=
  inferInstanceAs (Decidable (_ ∧ _))

/-- The messages of an update that are merged: those of a range that meets the ids. -/
def messagesToMerge (update : SliceUpdate) (b : SparseIdsSliceBuilder) : Option (Finset MsgId) :=
  if intersects update.range ⟨(front b.ids).getD b.key, (back b.ids).getD b.key⟩ then
    update.messages
  else none

def applyUpdate (update : SliceUpdate) (b : SparseIdsSliceBuilder) :
    Option (Bool × SparseIdsSliceBuilder) :=
  let messages := b.messagesToMerge update
  if messages = none ∧ update.count = none then some (false, b)
  else
    (b.mergeSliceData update.count (messages.getD ∅)
      (if update.range.fromId = 0 then some 0 else none)
      (if update.range.till = ServerMaxMsgId then some 0 else none)).map (true, ·)

def decrement (count : Option ℤ) : Option ℤ := count.map (· - 1)

/-- The part of the list the removed message was in. -/
def removeFromPart (messageId : MsgId) (b : SparseIdsSliceBuilder) : Bool × SparseIdsSliceBuilder :=
  if messageId ∈ b.ids then (true, { b with ids := b.ids.erase messageId })
  else if b.ids = ∅ then (false, b)
  else if (front b.ids).any (messageId < ·) ∧ b.skippedBefore.any (0 < ·) then
    (true, { b with skippedBefore := decrement b.skippedBefore })
  else if (back b.ids).any (· < messageId) ∧ b.skippedAfter.any (0 < ·) then
    (true, { b with skippedAfter := decrement b.skippedAfter })
  else (false, b)

def removeOne (messageId : MsgId) (b : SparseIdsSliceBuilder) :
    Option (Bool × SparseIdsSliceBuilder) :=
  let counted := b.fullCount.any (0 < ·)
  let b := if counted then { b with fullCount := decrement b.fullCount } else b
  let (removed, b) := b.removeFromPart messageId
  if counted || removed then b.checkInsufficient.map (true, ·) else some (false, b)

def removeAll (b : SparseIdsSliceBuilder) : Bool × SparseIdsSliceBuilder :=
  (true, { b with
    ids := ∅
    range := ⟨0, ServerMaxMsgId⟩
    fullCount := some 0
    skippedBefore := some 0
    skippedAfter := some 0 })

def invalidateBottom (b : SparseIdsSliceBuilder) : Option (Bool × SparseIdsSliceBuilder) :=
  let range :=
    if b.range.till = ServerMaxMsgId then { b.range with till := (back b.ids).getD b.range.fromId }
    else b.range
  { b with fullCount := none, skippedAfter := none, range := range }.checkInsufficient.map (true, ·)

/-! ## Runs -/

inductive Event
  | applyInitial (result : SparseIdsListResult)
  | applyUpdate (update : SliceUpdate)
  | removeOne (messageId : MsgId)
  | removeAll
  | invalidateBottom

def step (e : Event) (b : SparseIdsSliceBuilder) : Option SparseIdsSliceBuilder :=
  match e with
  | .applyInitial result => (b.applyInitial result).map Prod.snd
  | .applyUpdate update => (b.applyUpdate update).map Prod.snd
  | .removeOne messageId => (b.removeOne messageId).map Prod.snd
  | .removeAll => some b.removeAll.2
  | .invalidateBottom => b.invalidateBottom.map Prod.snd

def run : List Event → SparseIdsSliceBuilder → Option SparseIdsSliceBuilder
  | [], b => some b
  | e :: es, b => (step e b).bind (run es)

end SparseIdsSliceBuilder

end Bettergram.Data
