import Mathlib.Data.List.Basic
import Mathlib.Data.List.Nodup
import Mathlib.Data.Int.Init
import Mathlib.Logic.Function.Basic

/-! # Layout of an album

A layout is chosen among the ways to cut the items of an album into lines. The
sizes decide which of them is taken; whether there is one at all depends on the
number of items only.
-/

namespace Bettergram.Ui

/-- `1, ..., end - 1` -/
def upTo (till : ℕ) : List ℕ := List.range' 1 (till - 1)

/-- The line counts of the attempts of `ComplexLayouter::layout`; the flag says that the
average ratio is below 0.85. -/
def lineCounts (count : ℕ) (narrow : Bool) : List (List ℕ) :=
  ((upTo count).filterMap fun first =>
    let second := count - first
    if 3 < first ∨ 3 < second then none else some [first, second]) ++
  ((upTo (count - 1)).flatMap fun first => (upTo (count - first)).filterMap fun second =>
    let third := count - first - second
    if 3 < first ∨ (if narrow then 4 else 3) < second ∨ 3 < third then none
    else some [first, second, third]) ++
  ((upTo (count - 1)).flatMap fun first => (upTo (count - first)).flatMap fun second =>
    (upTo (count - first - second)).filterMap fun third =>
      let fourth := count - first - second - third
      if 3 < first ∨ 3 < second ∨ 3 < third ∨ 3 < fourth then none
      else some [first, second, third, fourth])

/-- Whether `LayoutMediaGroup` gets through its assertions; `wide` says that some ratio
is above 2. -/
def layoutMediaGroup (count : ℕ) (wide narrow : Bool) : Bool :=
  if count = 0 then true
  else if count = 1 then true
  else if 5 ≤ count ∨ wide then 1 < count && lineCounts count narrow ≠ []
  else if count = 2 then true
  else if count = 3 then true
  else count = 4

def kMaxSize : ℕ := 10

/-- `HistoryGroupedMedia` with `applyGroup` and `countOptimalSize`. -/
def groupedMedia {α : Type} (items : List α) (wide narrow : Bool) : Bool :=
  let parts := items.take kMaxSize
  parts ≠ [] && parts.length ≤ kMaxSize && layoutMediaGroup parts.length wide narrow

theorem layoutMediaGroup_true : ∀ count ≤ kMaxSize, ∀ wide narrow,
    layoutMediaGroup count wide narrow = true := by decide

theorem groupedMedia_true {α : Type} {items : List α} (h : items ≠ []) (wide narrow : Bool) :
    groupedMedia items wide narrow = true := by
  have hlength : (items.take kMaxSize).length ≤ kMaxSize := by
    rw [List.length_take]
    exact Nat.min_le_left _ _
  have hparts : items.take kMaxSize ≠ [] := by
    rw [Ne, List.take_eq_nil_iff, not_or]
    exact ⟨by decide, h⟩
  simp only [groupedMedia, Bool.and_eq_true, decide_eq_true_eq]
  exact ⟨⟨hparts, hlength⟩, layoutMediaGroup_true _ hlength wide narrow⟩

end Bettergram.Ui

/-! ## Album groups

The messages of an album are kept in the order of their server ids, while local
ids stand where they came. A message is put in when it is registered, and moved
or put in when it is refreshed.
-/

namespace Bettergram.Data.Groups

def ServerMaxMsgId : ℤ := 0x3FFFFFFF
def kMaxItemsInGroup : ℕ := 10

def IsServerMsgId (id : ℤ) : Bool := 0 < id && id < ServerMaxMsgId

structure HistoryItem (γ : Type) where
  id : ℤ
  groupId : Option γ
  /-- There is a media, and it can be grouped. -/
  canBeGrouped : Bool

structure State (μ γ : Type) where
  item : μ → HistoryItem γ
  groups : γ → Option (List μ)

/-! ## Places of a message -/

section Places

variable {μ : Type} (id : μ → ℤ)

def findPositionForItem (group : List μ) (itemId : ℤ) : ℕ :=
  if IsServerMsgId itemId then
    group.findIdx fun already => IsServerMsgId (id already) && itemId < id already
  else group.length

def insertAt (items : List μ) (position : ℕ) (item : μ) : List μ :=
  items.take position ++ item :: items.drop position

/-- `std::swap(*(current - 1), *current)` -/
def swapBefore (items : List μ) (current : ℕ) : List μ :=
  match items[current - 1]?, items[current]? with
  | some a, some b => (items.set (current - 1) b).set current a
  | _, _ => items

/-- Moves the item at `current` in front of the one at `position`; `none` stands for
`Unexpected`. -/
def moveItem (items : List μ) (current position : ℕ) : Option (List μ) :=
  if position = current + 1 then some items
  else if current + 1 < position then
    some ((List.range' (current + 1) (position - (current + 1))).foldl swapBefore items)
  else if position < current then
    some ((List.range' (position + 1) (current - position)).reverse.foldl swapBefore items)
  else none

end Places

/-! ## Operations -/

variable {μ γ : Type} [DecidableEq μ] [DecidableEq γ]

namespace State

def id (s : State μ γ) (item : μ) : ℤ := (s.item item).id

/-- `isGrouped`, with the group. -/
def grouped (s : State μ γ) (item : μ) : Option γ :=
  if (s.item item).canBeGrouped then (s.item item).groupId else none

def put (s : State μ γ) (groupId : γ) (items : Option (List μ)) : State μ γ :=
  { s with groups := Function.update s.groups groupId items }

def registerMessage (s : State μ γ) (item : μ) : State μ γ :=
  match s.grouped item with
  | none => s
  | some groupId =>
    let items := (s.groups groupId).getD []
    if items.length < kMaxItemsInGroup then
      s.put groupId (insertAt items (findPositionForItem s.id items (s.id item)) item)
    else s

def unregisterMessage (s : State μ γ) (item : μ) : State μ γ :=
  match (s.item item).groupId with
  | none => s
  | some groupId =>
    match s.groups groupId with
    | none => s
    | some items =>
      if item ∈ items then
        let left := items.filter fun other => other ≠ item
        if left = [] then s.put groupId none else s.put groupId left
      else s

def refreshMessage (s : State μ γ) (item : μ) : Option (State μ γ) :=
  match s.grouped item with
  | none => some (s.unregisterMessage item)
  | some groupId =>
    if ¬ IsServerMsgId (s.id item) then some s
    else
      match s.groups groupId with
      | none => some (s.registerMessage item)
      | some items =>
        let position := findPositionForItem s.id items (s.id item)
        if item ∉ items then some (s.put groupId (insertAt items position item))
        else (moveItem items (items.idxOf item) position).map fun items => s.put groupId items

def change (s : State μ γ) (item : μ) (new : HistoryItem γ) : State μ γ :=
  { s with item := Function.update s.item item new }

end State

inductive Event (μ γ : Type)
  | setGroupId (item : μ) (groupId : γ)
  | setRealId (item : μ) (newId : ℤ)
  | setMedia (item : μ) (canBeGrouped : Bool)
  | registerMessage (item : μ)
  | unregisterMessage (item : μ)
  | refreshMessage (item : μ)

/-- `setGroupId` and `setRealId` go on to the group; `none` stands for a failed `Expects`
or for `Unexpected`. -/
def step (s : State μ γ) : Event μ γ → Option (State μ γ)
  | .setGroupId item groupId =>
    if (s.item item).groupId ≠ none then none
    else some ((s.change item { s.item item with groupId }).registerMessage item)
  | .setRealId item newId =>
    if IsServerMsgId (s.id item) then none
    else (s.change item { s.item item with id := newId }).refreshMessage item
  | .setMedia item canBeGrouped => some (s.change item { s.item item with canBeGrouped })
  | .registerMessage item => some (s.registerMessage item)
  | .unregisterMessage item => some (s.unregisterMessage item)
  | .refreshMessage item => s.refreshMessage item

def run (s : State μ γ) (events : List (Event μ γ)) : Option (State μ γ) := events.foldlM step s

/-- The items with server ids are in the order of these. -/
def Ordered (id : μ → ℤ) (items : List μ) : Prop :=
  items.Pairwise fun a b => IsServerMsgId (id a) = true → IsServerMsgId (id b) = true → id a < id b

/-- What should hold of every group. -/
structure Valid (s : State μ γ) : Prop where
  nodup : ∀ groupId items, s.groups groupId = some items → items.Nodup
  limit : ∀ groupId items, s.groups groupId = some items → items.length ≤ kMaxItemsInGroup
  ordered : ∀ groupId items, s.groups groupId = some items → Ordered s.id items
  laidOut : ∀ groupId items, s.groups groupId = some items →
    ∀ wide narrow, Ui.groupedMedia items wide narrow = true

/-- What may come: a message gets its group once and is registered once, and a local id
becomes a server id that no other message has. -/
def Possible (s : State μ γ) : Event μ γ → Prop
  | .setGroupId item _ => (s.item item).groupId = none
  | .setRealId item newId => IsServerMsgId (s.id item) = false ∧ IsServerMsgId newId = true ∧
      ∀ other, s.id other ≠ newId
  | .setMedia _ _ => True
  | .registerMessage item => ∀ groupId items, s.groups groupId = some items → item ∉ items
  | .unregisterMessage _ => True
  | .refreshMessage _ => True

/-- There is room for a message that the refresh puts into its group. -/
def RoomFor (s : State μ γ) (item : μ) : Prop :=
  ∀ groupId items, s.grouped item = some groupId → s.groups groupId = some items →
    item ∉ items → items.length < kMaxItemsInGroup

/-- When the groups stay valid. -/
def Meets (s : State μ γ) : Event μ γ → Prop
  | .setRealId item _ => RoomFor s item
  | .refreshMessage item => IsServerMsgId (s.id item) = true → RoomFor s item
  | _ => True

/-- `P` holds of each event in the state it comes in. -/
def Along (P : State μ γ → Event μ γ → Prop) : State μ γ → List (Event μ γ) → Prop
  | _, [] => True
  | s, e :: rest => P s e ∧ ∀ s', step s e = some s' → Along P s' rest

/-- No groups yet, and no two messages with one server id. -/
structure Fresh (s : State μ γ) : Prop where
  groups : ∀ groupId, s.groups groupId = none
  distinct : ∀ a b, IsServerMsgId (s.id a) = true → s.id a = s.id b → a = b

end Bettergram.Data.Groups
