import Mathlib

/-! # The items of a news channel

`RssChannel` with its items: each feed is merged into the list by link, then the items that are
neither in the feed nor young enough are removed, and the rest is sorted. What the XML reader
and the item parsers read from a document is a parameter, and so are the clock and the order of
items of one date.
-/

namespace Bettergram.News

abbrev QString := List Char

/-- A normalized URL; the empty one is `[]`. -/
abbrev QUrl := List Char

/-- What a feed says about an item. A null date is `none`, others are in milliseconds. -/
structure ItemData where
  title : QString
  description : QString
  link : QUrl
  publishDate : Option ℤ
  imageLink : QUrl
  guid : QString
  author : QString
  categoryList : List QString
  commentsLink : QUrl
  deriving DecidableEq

/-- An item as it was parsed. -/
structure Entry extends ItemData where
  imageFromSite : Option QUrl
  deriving DecidableEq

structure RssItem extends Entry where
  isRead : Bool := false
  isExistAtLastFeeds : Bool := true
  deriving DecidableEq

def ItemData.isValid (item : ItemData) : Bool :=
  !item.link.isEmpty && !item.title.isEmpty && item.publishDate.isSome

namespace RssItem

/-- Keep news only for the last hours. -/
def maxLastHoursInMs : ℤ := 24 * 60 * 60 * 1000

/-- A null date is no time away from any other. -/
def isOld (now : ℤ) (item : RssItem) : Bool :=
  match item.publishDate with
  | none => false
  | some date => decide (date - now < -maxLastHoursInMs)

def equalsTo (entry : Entry) (item : RssItem) : Bool := item.link == entry.link

/-- The mark of being read is not changed. -/
def update (entry : Entry) (item : RssItem) : RssItem :=
  { item with
    toItemData := entry.toItemData
    imageFromSite :=
      match item.imageFromSite, entry.imageFromSite with
      | some _, some link => some link
      | none, some link => some link
      | old, none => old
    isExistAtLastFeeds := true }

def setIsExistAtLastFeeds (value : Bool) (item : RssItem) : RssItem :=
  { item with isExistAtLastFeeds := value }

def markAsRead (item : RssItem) : RssItem := { item with isRead := true }

end RssItem

/-- Newest first; a null date is the epoch. -/
def compare (a b : RssItem) : Bool := decide (b.publishDate.getD 0 < a.publishDate.getD 0)

/-- An order in which `std::sort` may leave the items. -/
structure Sorting where
  sort : List RssItem → List RssItem
  perm : ∀ items, (sort items).Perm items
  sorted : ∀ items, (sort items).Pairwise fun a b => compare b a = false

structure RssChannel (Source Hash : Type) where
  list : List RssItem := []
  source : Option Source := none
  lastSourceHash : Option Hash := none

namespace RssChannel

variable {Source Hash : Type}

def getAllUnreadItems (channel : RssChannel Source Hash) : List RssItem :=
  channel.list.filter fun item => !item.isRead

def countUnread (channel : RssChannel Source Hash) : ℕ :=
  channel.list.foldl (fun result item => if item.isRead then result + 1 else result) 0

def markAllAsRead (channel : RssChannel Source Hash) : RssChannel Source Hash :=
  { channel with list := channel.list.map RssItem.markAsRead }

def markItemAsRead (index : ℕ) (channel : RssChannel Source Hash) : RssChannel Source Hash :=
  { channel with list := channel.list.modify index RssItem.markAsRead }

/-- Where the item is in the list. -/
def find (entry : Entry) (list : List RssItem) : Option ℕ :=
  list.findIdx? (RssItem.equalsTo entry)

def add (entry : Entry) (list : List RssItem) : List RssItem :=
  if entry.isValid then list ++ [{ toEntry := entry }] else list

def merge (list : List RssItem) (entry : Entry) : List RssItem :=
  if entry.isValid then
    match find entry list with
    | none => add entry list
    | some index => list.modify index (RssItem.update entry)
  else list

/-- The clock is read once for each item. -/
def removeOldItems : (ℕ → ℤ) → List RssItem → List RssItem
  | _, [] => []
  | now, item :: list =>
    if !item.isExistAtLastFeeds && item.isOld (now 0) then
      removeOldItems (fun i => now (i + 1)) list
    else item :: removeOldItems (fun i => now (i + 1)) list

variable [DecidableEq Hash] (hash : Source → Hash) (read : Source → List Entry × Bool)
  (sorting : Sorting)

def fetchingSucceed (source : Source) (channel : RssChannel Source Hash) :
    RssChannel Source Hash :=
  if some (hash source) ≠ channel.lastSourceHash then { channel with source := some source }
  else channel

/-- `read` gives the items in their order, and whether the reader ends with an error. -/
def parse (now : ℕ → ℤ) (channel : RssChannel Source Hash) : Bool × RssChannel Source Hash :=
  match channel.source with
  | none => (false, channel)
  | some source =>
    let old := channel.list.map (RssItem.setIsExistAtLastFeeds false)
    let (entries, failed) := read source
    let merged := entries.foldl merge old
    let list := if failed then merged else removeOldItems now merged
    (true, {
      list := sorting.sort list
      lastSourceHash := some (hash source)
      source := none })

/-- What happens to a channel. -/
inductive Event (Source : Type) where
  | feed (source : Source) (now : ℕ → ℤ)
  | markAsRead
  | markItemAsRead (index : ℕ)

def step (channel : RssChannel Source Hash) : Event Source → RssChannel Source Hash
  | .feed source now => (parse hash read sorting now (fetchingSucceed hash source channel)).2
  | .markAsRead => channel.markAllAsRead
  | .markItemAsRead index => channel.markItemAsRead index

def run (events : List (Event Source)) : RssChannel Source Hash :=
  events.foldl (step hash read sorting) {}

end RssChannel

end Bettergram.News
