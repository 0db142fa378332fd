import Mathlib.Data.Rat.Defs
import Mathlib.Data.List.Nodup
import Mathlib.Logic.Function.Basic
import Bettergram.Ui.Text.TextEntity

/-! # The price list of coins

`CryptoPriceList` and its coins. A coin is an object: the list, the search results and the
favourites hold pointers to it. Favourites are saved in a settings file under the name and the
code of the coin. A response is what the JSON reader gives; numbers are exact.
-/

namespace Bettergram.Prices
open Bettergram.Ui.Text (QString)

inductive Direction where
  | none
  | up
  | down
  deriving DecidableEq

structure CryptoPrice where
  url : QString
  iconUrl : QString
  name : QString
  shortName : QString
  rank : ℤ := 0
  currentPrice : Option ℚ := Option.none
  changeFor24Hours : Option ℚ := Option.none
  minuteDirection : Direction := .none
  dayDirection : Direction := .none
  isFavorite : Bool := false
  deriving DecidableEq

/-- Under this text a favourite is saved. -/
def joined (name shortName : QString) : QString := name ++ '_'.toNat :: shortName

namespace CryptoPrice

def countDirection : Option ℚ → Direction
  | none => .none
  | some value => if 0 < value then .up else if value < 0 then .down else .none

def setChangeFor24Hours (change : Option ℚ) (price : CryptoPrice) : CryptoPrice :=
  if price.changeFor24Hours ≠ change then
    { price with changeFor24Hours := change, dayDirection := countDirection change }
  else price

def nameAndShortName (price : CryptoPrice) : QString := joined price.name price.shortName

/-- The name, the code and the mark of a favourite stay. -/
def updateData (data price : CryptoPrice) : CryptoPrice :=
  { setChangeFor24Hours data.changeFor24Hours price with
    url := data.url
    iconUrl := data.iconUrl
    currentPrice := data.currentPrice
    minuteDirection := data.minuteDirection }

end CryptoPrice

/-! ## The saved favourites -/

/-- A key of the settings, as its groups: slashes separate groups, empty groups do not count. -/
abbrev Key := List QString

def normalizedKey (key : QString) : Key :=
  (key.splitOn '/'.toNat).filter fun part => !part.isEmpty

/-- The keys of the saved favourites. -/
abbrev Saved := List Key

namespace Saved

def value (saved : Saved) (key : QString) : Bool := saved.contains (normalizedKey key)

def setValue (key : QString) (saved : Saved) : Saved :=
  if saved.contains (normalizedKey key) then saved else normalizedKey key :: saved

/-- A key is removed with its sub-keys. -/
def remove (key : QString) (saved : Saved) : Saved :=
  saved.filter fun other => !(normalizedKey key).isPrefixOf other

end Saved

/-! ## Responses -/

structure CoinJson where
  isEmpty : Bool := false
  type : QString
  name : QString
  code : QString
  url : QString
  icon : QString

structure NamesJson where
  success : Bool
  coinsUrlBase : QString
  coinsIconBase : QString
  data : List CoinJson

structure DeltaJson where
  containsDay : Bool
  day : Option ℚ
  minute : Option ℚ

/-- A price without `delta` has an empty one. -/
structure ValueJson where
  isEmpty : Bool := false
  code : QString
  name : QString
  delta : Option DeltaJson
  rank : Option ℤ
  price : Option ℚ

structure ValuesJson where
  success : Bool
  total : ℤ
  data : List ValueJson

/-- What Qt knows of characters. -/
structure CharTables where
  isSpace : ℕ → Bool
  isWord : ℕ → Bool

def coin : QString := "coin".toList.map Char.toNat

/-! ## The list -/

/-- A pointer to a coin. -/
abbrev Pointer := ℕ

structure CryptoPriceList where
  coins : Pointer → CryptoPrice := fun _ => ⟨[], [], [], [], 0, none, none, .none, .none, false⟩
  next : Pointer := 0
  list : List Pointer := []
  searchList : List Pointer := []
  favoriteList : List Pointer := []
  lastListValuesTotalCount : ℤ := 0
  searchText : QString := []
  isSearchInProgress : Bool := false
  isShowOnlyFavorites : Bool := false
  areNamesFetched : Bool := false
  saved : Saved

namespace CryptoPriceList

variable (tables : CharTables)

def modifyCoin (p : Pointer) (f : CryptoPrice → CryptoPrice) (s : CryptoPriceList) :
    CryptoPriceList :=
  { s with coins := Function.update s.coins p (f (s.coins p)) }

/-- With saving to the settings. -/
def setIsFavorite (p : Pointer) (isFavorite : Bool) (s : CryptoPriceList) : CryptoPriceList :=
  if (s.coins p).isFavorite ≠ isFavorite then
    { s.modifyCoin p (fun price => { price with isFavorite }) with
      saved := if isFavorite then s.saved.setValue (s.coins p).nameAndShortName
        else s.saved.remove (s.coins p).nameAndShortName }
  else s

def loadIsFavorite (p : Pointer) (s : CryptoPriceList) : CryptoPriceList :=
  s.setIsFavorite p (s.saved.value (s.coins p).nameAndShortName)

def updateFavoriteList (s : CryptoPriceList) : CryptoPriceList :=
  { s with favoriteList :=
      if s.isShowOnlyFavorites then s.list.filter fun p => (s.coins p).isFavorite else [] }

/-- A new object; it is in no list. -/
def allocate (price : CryptoPrice) (s : CryptoPriceList) : CryptoPriceList :=
  { s with coins := Function.update s.coins s.next price, next := s.next + 1 }

def addPrivate (p : Pointer) (s : CryptoPriceList) : CryptoPriceList :=
  { s with list := s.list ++ [p] }

def findByName (name shortName : QString) (s : CryptoPriceList) : Option Pointer :=
  s.list.find? fun p => (s.coins p).name == name && (s.coins p).shortName == shortName

def containsName (priceList : List CryptoPrice) (name shortName : QString) : Bool :=
  priceList.any fun price => price.name == name && price.shortName == shortName

def mergePrice (s : CryptoPriceList) (price : CryptoPrice) : CryptoPriceList :=
  match s.findByName price.name price.shortName with
  | some p => s.modifyCoin p (CryptoPrice.updateData price)
  | none => ((s.allocate price).loadIsFavorite s.next).addPrivate s.next

def removeOldPrices (priceList : List CryptoPrice) (s : CryptoPriceList) : CryptoPriceList :=
  { s with list := s.list.filter fun p =>
      containsName priceList (s.coins p).name (s.coins p).shortName }

def mergeCryptoPriceList (priceList : List CryptoPrice) (s : CryptoPriceList) :
    CryptoPriceList :=
  priceList.foldl mergePrice (s.removeOldPrices priceList)

def setAreNamesFetched (value : Bool) (s : CryptoPriceList) : CryptoPriceList :=
  { s with areNamesFetched := value }

/-- The addresses of a coin; `none` if one is missing. -/
def coinAddresses (json : NamesJson) (coinJson : CoinJson) : Option (QString × QString) :=
  let word (text : QString) := text.filter tables.isWord
  if coinJson.url.isEmpty && json.coinsUrlBase.isEmpty then none
  else if coinJson.icon.isEmpty then none
  else some (
    if coinJson.url.isEmpty then
      json.coinsUrlBase ++ word coinJson.name ++ '-'.toNat :: word coinJson.code
    else coinJson.url,
    if json.coinsIconBase.isEmpty then coinJson.icon else json.coinsIconBase ++ coinJson.icon)

/-- The checks that both downloads of names make. -/
def isCoin (coinJson : CoinJson) : Bool :=
  !coinJson.isEmpty && coinJson.type == coin && !coinJson.name.isEmpty && !coinJson.code.isEmpty

def parseCoin (json : NamesJson) (coinJson : CoinJson) : Option CryptoPrice :=
  if isCoin coinJson then
    (coinAddresses tables json coinJson).map fun (url, iconUrl) =>
      { url, iconUrl, name := coinJson.name, shortName := coinJson.code }
  else none

/-- `none` is a response that is empty, or no JSON object, or an empty one. -/
def parseNames (response : Option NamesJson) (s : CryptoPriceList) : CryptoPriceList :=
  let s := s.setAreNamesFetched false
  match response with
  | none => s
  | some json =>
    if !json.success || json.data.isEmpty then s
    else
      let priceList := json.data.filterMap (parseCoin tables json)
      let s := (s.mergeCryptoPriceList priceList).updateFavoriteList
      if !s.list.isEmpty && !priceList.isEmpty then s.setAreNamesFetched true else s

def minimumSearchText : ℕ := 2

def isSearching (s : CryptoPriceList) : Bool := decide (minimumSearchText ≤ s.searchText.length)

def trimmed (text : QString) : QString :=
  ((text.dropWhile tables.isSpace).reverse.dropWhile tables.isSpace).reverse

def setSearchText (text : QString) (s : CryptoPriceList) : CryptoPriceList :=
  if s.searchText ≠ trimmed tables text then
    let s := { s with searchText := trimmed tables text }
    { s with isSearchInProgress := s.isSearching }
  else s

def searchResultsAreEmpty (s : CryptoPriceList) : CryptoPriceList :=
  { s with isSearchInProgress := false }

def searchCoin (json : NamesJson) (s : CryptoPriceList) (coinJson : CoinJson) :
    CryptoPriceList :=
  if isCoin coinJson then
    match s.findByName coinJson.name coinJson.code with
    | some p => { s with searchList := s.searchList ++ [p] }
    | none =>
      match coinAddresses tables json coinJson with
      | none => s
      | some (url, iconUrl) =>
        let p := s.next
        let s := (s.allocate
          { url, iconUrl, name := coinJson.name, shortName := coinJson.code }).addPrivate p
        { s with searchList := s.searchList ++ [p] }
  else s

def parseSearchNames (response : Option NamesJson) (s : CryptoPriceList) : CryptoPriceList :=
  let s := { s with searchList := [] }
  if s.isSearching then
    match response with
    | none => s.searchResultsAreEmpty
    | some json =>
      if !json.success || json.data.isEmpty then s.searchResultsAreEmpty
      else { json.data.foldl (searchCoin tables json) s with isSearchInProgress := false }
  else s.searchResultsAreEmpty

/-- A price without a rank has its number in the response. -/
def parseValue (s : CryptoPriceList) (number : ℕ) (json : ValueJson) :
    Option (Pointer × CryptoPriceList) :=
  if json.isEmpty || json.code.isEmpty || json.name.isEmpty then none
  else
    match json.delta with
    | none => none
    | some delta =>
      let change := delta.day.map fun day => (day - 1) * 100
      let minute :=
        if delta.containsDay then delta.minute.map fun minute => (minute - 1) * 100 else none
      (s.findByName json.name json.code).map fun p =>
        (p, s.modifyCoin p fun price =>
          { price.setChangeFor24Hours change with
            rank := json.rank.getD number
            currentPrice := json.price
            minuteDirection := CryptoPrice.countDirection minute })

/-- The coins to show, the number of the prices that were read, and the list. -/
def addValue (read : List Pointer × ℕ × CryptoPriceList) (json : ValueJson) :
    List Pointer × ℕ × CryptoPriceList :=
  let (prices, number, s) := read
  match parseValue s number json with
  | none => (prices, number, s)
  | some (p, s) =>
    let shown :=
      if s.isSearching then s.searchList.contains p
      else !s.isShowOnlyFavorites || (s.coins p).isFavorite
    (if shown then prices ++ [p] else prices, number + 1, s)

def parsePriceListValues (data : List ValueJson) (s : CryptoPriceList) :
    List Pointer × ℕ × CryptoPriceList :=
  data.foldl addValue ([], 0, s)

def parseValues (response : Option ValuesJson) (s : CryptoPriceList) : CryptoPriceList :=
  match response with
  | none => s
  | some json =>
    if json.success then
      (parsePriceListValues json.data { s with lastListValuesTotalCount := json.total }).2.2
    else s

def setIsShowOnlyFavorites (value : Bool) (s : CryptoPriceList) : CryptoPriceList :=
  if s.isShowOnlyFavorites ≠ value then
    updateFavoriteList { s with isShowOnlyFavorites := value }
  else s

def onIsFavoriteToggled (p : Pointer) (s : CryptoPriceList) : CryptoPriceList :=
  if s.list.contains p then
    { s with favoriteList :=
        if (s.coins p).isFavorite then s.favoriteList ++ [p]
        else s.favoriteList.filter fun other => other != p }
  else s

def toggleIsFavorite (p : Pointer) (s : CryptoPriceList) : CryptoPriceList :=
  (s.setIsFavorite p (!(s.coins p).isFavorite)).onIsFavoriteToggled p

inductive Event where
  | parseNames (response : Option NamesJson)
  | parseValues (response : Option ValuesJson)
  | setSearchText (text : QString)
  | parseSearchNames (response : Option NamesJson)
  | setIsShowOnlyFavorites (value : Bool)
  | toggleIsFavorite (p : Pointer)

def step (s : CryptoPriceList) : Event → CryptoPriceList
  | .parseNames response => s.parseNames tables response
  | .parseValues response => s.parseValues response
  | .setSearchText text => s.setSearchText tables text
  | .parseSearchNames response => s.parseSearchNames tables response
  | .setIsShowOnlyFavorites value => s.setIsShowOnlyFavorites value
  | .toggleIsFavorite p => s.toggleIsFavorite p

/-- A run from the empty list, with favourites saved before. -/
def run (saved : Saved) (events : List Event) : CryptoPriceList :=
  events.foldl (step tables) { saved }

end CryptoPriceList

end Bettergram.Prices
