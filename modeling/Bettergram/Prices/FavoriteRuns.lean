import Mathlib.Data.List.Induction
import Bettergram.Prices.Favorites

/-! # Runs of the price list

Each event keeps the marks right: downloads and searches because a new coin has the saved mark,
a toggle because no other coin of the list is saved under the same key.
-/

namespace Bettergram.Prices
open Bettergram.Ui.Text (QString)

namespace CryptoPriceList

variable {tables : CharTables} {s s' : CryptoPriceList} {p : Pointer}

/-- What holds between two events. -/
structure Good (s : CryptoPriceList) : Prop where
  sound : Sound s
  shown : s.isShowOnlyFavorites = true → Shown s

theorem Same.good (h : Same s s') (hs : Good s) : Good s' where
  sound := h.sound hs.sound
  shown hshow := h.shown (hs.shown (h.isShowOnlyFavorites_eq ▸ hshow))

theorem same_setAreNamesFetched (s : CryptoPriceList) (value : Bool) :
    Same s (s.setAreNamesFetched value) :=
  ⟨fun _ => rfl, fun _ => rfl, rfl, rfl, rfl, rfl, rfl⟩

theorem good_updateFavoriteList (hs : Sound s) : Good s.updateFavoriteList where
  sound := ⟨hs.fresh, hs.unique, hs.flags⟩
  shown hshow := shown_updateFavoriteList hs hshow

theorem Good.parseNames (hs : Good s) (response : Option NamesJson) :
    Good (s.parseNames tables response) := by
  have hstart := (same_setAreNamesFetched s false).good hs
  unfold CryptoPriceList.parseNames
  cases response with
  | none => exact hstart
  | some json =>
    simp only
    split
    · exact hstart
    · have hflags : ∀ price ∈ json.data.filterMap (parseCoin tables json),
          price.isFavorite = false := by
        intro price hprice
        obtain ⟨coinJson, -, hparse⟩ := List.mem_filterMap.mp hprice
        exact parseCoin_isFavorite hparse
      have hmerged := good_updateFavoriteList (hstart.sound.mergeCryptoPriceList hflags)
      split
      · exact (same_setAreNamesFetched _ true).good hmerged
      · exact hmerged

/-! ## Searches -/

/-- Coins that are saved are in the list. -/
def Known (data : List CoinJson) (s : CryptoPriceList) : Prop :=
  ∀ coinJson ∈ data, s.saved.value (joined coinJson.name coinJson.code) = true →
    s.findByName coinJson.name coinJson.code ≠ none

theorem Good.insertCoin (hs : Good s) {price : CryptoPrice}
    (hnew : s.findByName price.name price.shortName = none) (hflag : price.isFavorite = false)
    (hsaved : s.saved.value price.nameAndShortName = false) : Good (s.insertCoin price) where
  sound := hs.sound.insertCoin hnew (hflag.trans hsaved.symm)
  shown hshow := (hs.shown hshow).insertCoin hs.sound hflag

theorem Known.insertCoin {data : List CoinJson} (h : Known data s) (hs : Sound s)
    (price : CryptoPrice) : Known data (s.insertCoin price) := by
  intro coinJson hmem hvalue hnone
  refine h coinJson hmem hvalue (findByName_eq_none.mpr fun hin => ?_)
  obtain ⟨q, hq, hidentity⟩ := List.mem_map.mp hin
  refine findByName_eq_none.mp hnone (List.mem_map.mpr ⟨q, List.mem_append_left _ hq, ?_⟩)
  rwa [insertCoin_coins_of_mem hs price hq]

theorem same_searchList (s : CryptoPriceList) (searchList : List Pointer) :
    Same s { s with searchList } :=
  ⟨fun _ => rfl, fun _ => rfl, rfl, rfl, rfl, rfl, rfl⟩

theorem Same.known {data : List CoinJson} (h : Same s s') (hs : Known data s) :
    Known data s' := by
  intro coinJson hmem hvalue hnone
  rw [h.saved_eq] at hvalue
  refine hs coinJson hmem hvalue (findByName_eq_none.mpr ?_)
  have hnot := findByName_eq_none.mp hnone
  simp only [h.identity_eq, h.list_eq] at hnot
  exact hnot

variable (tables) in
theorem Good.searchCoin (hs : Good s) (json : NamesJson) {coinJson : CoinJson}
    {data : List CoinJson} (h : Known (coinJson :: data) s) :
    Good (s.searchCoin tables json coinJson) ∧ Known data (s.searchCoin tables json coinJson) := by
  have hrest : Known data s := fun other hmem => h other (List.mem_cons_of_mem _ hmem)
  unfold CryptoPriceList.searchCoin
  split
  · split
    · exact ⟨(same_searchList s _).good hs, (same_searchList s _).known hrest⟩
    · next hnew =>
      split
      · exact ⟨hs, hrest⟩
      · next url iconUrl _ =>
        have hsaved : s.saved.value (joined coinJson.name coinJson.code) = false := by
          rw [← Bool.not_eq_true]
          exact fun hvalue => h coinJson List.mem_cons_self hvalue hnew
        set price : CryptoPrice :=
          { url, iconUrl, name := coinJson.name, shortName := coinJson.code } with hprice
        have hgood : Good (s.insertCoin price) := hs.insertCoin hnew rfl hsaved
        exact ⟨(same_searchList _ _).good hgood,
          (same_searchList _ _).known (hrest.insertCoin hs.sound price)⟩
  · exact ⟨hs, hrest⟩

variable (tables) in
theorem Good.foldl_searchCoin (hs : Good s) (json : NamesJson) {data : List CoinJson}
    (h : Known data s) : Good (data.foldl (CryptoPriceList.searchCoin tables json) s) := by
  induction data generalizing s with
  | nil => exact hs
  | cons coinJson data ih =>
    obtain ⟨hgood, hknown⟩ := hs.searchCoin tables json h
    exact ih hgood hknown

theorem Good.parseSearchNames (hs : Good s) {response : Option NamesJson}
    (h : ∀ json, response = some json → Known json.data s) :
    Good (s.parseSearchNames tables response) := by
  have hempty : ∀ t : CryptoPriceList, Same t t.searchResultsAreEmpty :=
    fun t => ⟨fun _ => rfl, fun _ => rfl, rfl, rfl, rfl, rfl, rfl⟩
  have hstart := same_searchList s []
  unfold CryptoPriceList.parseSearchNames
  simp only
  split
  · cases response with
    | none => exact (hstart.trans (hempty _)).good hs
    | some json =>
      simp only
      split
      · exact (hstart.trans (hempty _)).good hs
      · have hfold := (hstart.good hs).foldl_searchCoin tables json
          (hstart.known (h json rfl))
        exact ⟨⟨hfold.sound.fresh, hfold.sound.unique, hfold.sound.flags⟩,
          fun hshow => ⟨(hfold.shown hshow).nodup, (hfold.shown hshow).mem_iff⟩⟩
  · exact (hstart.trans (hempty _)).good hs

/-! ## Prices and settings of the list -/

theorem same_parseValue {number : ℕ} {json : ValueJson} (h : parseValue s number json =
    some (p, s')) : Same s s' := by
  unfold parseValue at h
  split at h
  · cases h
  · split at h
    · cases h
    · obtain ⟨q, -, heq⟩ := Option.map_eq_some_iff.mp h
      cases heq
      exact same_modifyCoin s _ (fun price => (identity_setChangeFor24Hours _ price).1)
        fun price => (identity_setChangeFor24Hours _ price).2

theorem same_addValue (read : List Pointer × ℕ × CryptoPriceList) (json : ValueJson) :
    Same read.2.2 (addValue read json).2.2 := by
  unfold addValue
  simp only
  cases hparse : parseValue read.2.2 read.2.1 json with
  | none => exact Same.refl _
  | some result => exact same_parseValue hparse

theorem same_foldl_addValue (data : List ValueJson) (read : List Pointer × ℕ × CryptoPriceList) :
    Same read.2.2 (data.foldl addValue read).2.2 := by
  induction data generalizing read with
  | nil => exact Same.refl _
  | cons json data ih => exact (same_addValue read json).trans (ih _)

theorem Good.parseValues (hs : Good s) (response : Option ValuesJson) :
    Good (s.parseValues response) := by
  unfold CryptoPriceList.parseValues
  cases response with
  | none => exact hs
  | some json =>
    simp only
    split
    · have htotal : Same s { s with lastListValuesTotalCount := json.total } :=
        ⟨fun _ => rfl, fun _ => rfl, rfl, rfl, rfl, rfl, rfl⟩
      exact (htotal.trans (same_foldl_addValue json.data ([], 0, _))).good hs
    · exact hs

theorem Good.setSearchText (hs : Good s) (text : QString) :
    Good (s.setSearchText tables text) := by
  unfold CryptoPriceList.setSearchText
  split
  · have hsame : Same s { s with
        searchText := trimmed tables text
        isSearchInProgress :=
          isSearching { s with searchText := trimmed tables text } } :=
      ⟨fun _ => rfl, fun _ => rfl, rfl, rfl, rfl, rfl, rfl⟩
    exact hsame.good hs
  · exact hs

theorem Good.setIsShowOnlyFavorites (hs : Good s) (value : Bool) :
    Good (s.setIsShowOnlyFavorites value) := by
  unfold CryptoPriceList.setIsShowOnlyFavorites
  split
  · exact good_updateFavoriteList ⟨hs.sound.fresh, hs.sound.unique, hs.sound.flags⟩
  · exact hs

/-! ## Toggles -/

/-- No other coin of the list is saved under the key of the coin, or under a key inside it. -/
def Alone (p : Pointer) (s : CryptoPriceList) : Prop :=
  ∀ q ∈ s.list, q ≠ p → ¬normalizedKey (s.coins p).nameAndShortName <+:
    normalizedKey (s.coins q).nameAndShortName

/-- The coins and the saved favourites after a toggle. -/
theorem toggle_eq (s : CryptoPriceList) (p : Pointer) :
    s.setIsFavorite p (!(s.coins p).isFavorite) =
      { s.modifyCoin p (fun price => { price with isFavorite := !(s.coins p).isFavorite }) with
        saved := if (s.coins p).isFavorite then s.saved.remove (s.coins p).nameAndShortName
          else s.saved.setValue (s.coins p).nameAndShortName } := by
  unfold setIsFavorite
  cases (s.coins p).isFavorite <;> rfl

/-- The list before and after a toggle, without the favourites. -/
structure Toggled (p : Pointer) (s s' : CryptoPriceList) : Prop where
  coins_self : (s'.coins p).isFavorite = !(s.coins p).isFavorite
  coins_other : ∀ q, q ≠ p → s'.coins q = s.coins q
  identity_eq : ∀ q, identity (s'.coins q) = identity (s.coins q)
  list_eq : s'.list = s.list
  next_eq : s'.next = s.next
  saved_eq : s'.saved = if (s.coins p).isFavorite then
    s.saved.remove (s.coins p).nameAndShortName
    else s.saved.setValue (s.coins p).nameAndShortName

theorem toggled_setIsFavorite (s : CryptoPriceList) (p : Pointer) :
    Toggled p s (s.setIsFavorite p (!(s.coins p).isFavorite)) := by
  rw [toggle_eq]
  exact {
    coins_self := by simp [modifyCoin]
    coins_other := fun q hq => Function.update_of_ne hq _ _
    identity_eq := fun q => by
      by_cases hq : q = p
      · subst hq
        simp [modifyCoin, identity]
      · simp [modifyCoin, hq]
    list_eq := rfl
    next_eq := rfl
    saved_eq := rfl }

theorem Toggled.sound (h : Toggled p s s') (hs : Sound s) (halone : Alone p s) : Sound s' where
  fresh q hq := by
    rw [h.next_eq]
    rw [h.list_eq] at hq
    exact hs.fresh q hq
  unique := by
    simp only [h.identity_eq, h.list_eq]
    exact hs.unique
  flags q hq := by
    rw [h.list_eq] at hq
    rw [nameAndShortName_eq (h.identity_eq q), h.saved_eq]
    by_cases hqp : q = p
    · subst hqp
      rw [h.coins_self]
      cases (s.coins q).isFavorite with
      | true =>
        rw [if_pos rfl, Saved.value_remove_self]
        rfl
      | false =>
        rw [if_neg Bool.false_ne_true, Saved.value_setValue_self]
        rfl
    · have hprefix := halone q hq hqp
      rw [h.coins_other q hqp, hs.flags q hq]
      split
      · rw [Saved.value_remove_of_not_prefix hprefix]
      · refine (Saved.value_setValue_of_ne fun heq => hprefix ?_).symm
        exact heq ▸ List.prefix_refl _

theorem Good.toggleIsFavorite (hs : Good s) (halone : Alone p s) :
    Good (s.toggleIsFavorite p) := by
  have htoggled := toggled_setIsFavorite s p
  have hfavoriteList : (s.setIsFavorite p (!(s.coins p).isFavorite)).favoriteList =
      s.favoriteList := by rw [toggle_eq]; rfl
  have hshow : (s.setIsFavorite p (!(s.coins p).isFavorite)).isShowOnlyFavorites =
      s.isShowOnlyFavorites := by rw [toggle_eq]; rfl
  unfold CryptoPriceList.toggleIsFavorite
  generalize s.setIsFavorite p (!(s.coins p).isFavorite) = t at htoggled hfavoriteList hshow
  have hsound := htoggled.sound hs.sound halone
  have hother : ∀ q, q ≠ p → (t.coins q).isFavorite = (s.coins q).isFavorite :=
    fun q hq => by rw [htoggled.coins_other q hq]
  unfold onIsFavoriteToggled
  by_cases hlisted : t.list.contains p = true
  · rw [if_pos hlisted]
    refine ⟨⟨hsound.fresh, hsound.unique, hsound.flags⟩, fun hshown => ?_⟩
    have hold := hs.shown (hshow ▸ hshown)
    have hmem : p ∈ s.list := htoggled.list_eq ▸ List.contains_iff_mem.mp hlisted
    by_cases hflag : (t.coins p).isFavorite = true
    · have hnot : p ∉ s.favoriteList := by
        rw [hold.mem_iff, not_and]
        intro _
        rw [htoggled.coins_self] at hflag
        simpa using hflag
      refine ⟨?_, fun q => ?_⟩
      · simp only [hflag, if_true, hfavoriteList]
        exact List.nodup_append_comm.mp (List.nodup_cons.mpr ⟨hnot, hold.nodup⟩)
      · simp only [hflag, if_true, hfavoriteList, htoggled.list_eq]
        rw [List.mem_append, List.mem_singleton, hold.mem_iff]
        by_cases hq : q = p
        · subst hq
          simp [hmem, hflag]
        · simp [hq, hother q hq]
    · refine ⟨?_, fun q => ?_⟩
      · simp only [hflag, Bool.false_eq_true, if_false, hfavoriteList]
        exact hold.nodup.filter _
      · simp only [hflag, Bool.false_eq_true, if_false, hfavoriteList, htoggled.list_eq]
        rw [List.mem_filter, hold.mem_iff]
        by_cases hq : q = p
        · subst hq
          simp [hflag]
        · simp [hq, hother q hq]
  · rw [if_neg hlisted]
    refine ⟨hsound, fun hshown => ?_⟩
    have hold := hs.shown (hshow ▸ hshown)
    have hmem : p ∉ s.list := by
      rw [List.contains_iff_mem, htoggled.list_eq] at hlisted
      exact hlisted
    refine ⟨by rw [hfavoriteList]; exact hold.nodup, fun q => ?_⟩
    rw [hfavoriteList, htoggled.list_eq, hold.mem_iff]
    refine and_congr_right fun hq => ?_
    rw [hother q fun heq => hmem (heq ▸ hq)]

/-! ## Runs -/

/-- A search finds no saved favourite that is not in the list, and a toggled coin is saved alone. -/
def Allowed (s : CryptoPriceList) : Event → Prop
  | .parseSearchNames (some json) => Known json.data s
  | .toggleIsFavorite p => Alone p s
  | _ => True

/-- What the list promises for its favourites. -/
structure Right (s : CryptoPriceList) : Prop where
  flags : ∀ p ∈ s.list, (s.coins p).isFavorite = s.saved.value (s.coins p).nameAndShortName
  unique : (s.list.map fun p => ((s.coins p).name, (s.coins p).shortName)).Nodup
  separate : ∀ p ∈ s.list, ∀ q ∈ s.list, p ≠ q → Plain (s.coins p).name (s.coins p).shortName →
    Plain (s.coins q).name (s.coins q).shortName →
    normalizedKey (s.coins p).nameAndShortName ≠ normalizedKey (s.coins q).nameAndShortName
  favorites : s.isShowOnlyFavorites = true →
    s.favoriteList.Nodup ∧ ∀ p, p ∈ s.favoriteList ↔ p ∈ s.list ∧ (s.coins p).isFavorite = true

theorem Good.right (h : Good s) : Right s where
  flags := h.sound.flags
  unique := h.sound.unique
  separate p hp q hq hne hplain hplain' := by
    refine normalizedKey_ne hplain hplain' fun heq => hne ?_
    exact List.inj_on_of_nodup_map h.sound.unique hp hq heq
  favorites hshow := ⟨(h.shown hshow).nodup, (h.shown hshow).mem_iff⟩

theorem Good.step (hs : Good s) {event : Event} (h : Allowed s event) :
    Good (s.step tables event) := by
  cases event with
  | parseNames response => exact hs.parseNames response
  | parseValues response => exact hs.parseValues response
  | setSearchText text => exact hs.setSearchText text
  | parseSearchNames response =>
    refine hs.parseSearchNames fun json hjson => ?_
    subst hjson
    exact h
  | setIsShowOnlyFavorites value => exact hs.setIsShowOnlyFavorites value
  | toggleIsFavorite p => exact hs.toggleIsFavorite h

theorem run_append (saved : Saved) (events : List Event) (event : Event) :
    run tables saved (events ++ [event]) = (run tables saved events).step tables event := by
  rw [run, List.foldl_append]
  rfl

def letters : CharTables where
  isSpace c := c == 32
  isWord _ := true

/-- A coin in a response. -/
def coinNamed (name code : QString) : CoinJson where
  type := coin
  name := name
  code := code
  url := name
  icon := code

def coinsNamed (data : List CoinJson) : Option NamesJson :=
  some { success := true, coinsUrlBase := [], coinsIconBase := [], data }

/-- Two coins, of which one is a favourite; then only favourites are shown, and the other coin is
searched for and made a favourite as well. -/
def shortRun : List Event :=
  [.parseNames (coinsNamed [coinNamed [65] [66], coinNamed [67] [68]]), .toggleIsFavorite 0,
    .setIsShowOnlyFavorites true, .setSearchText [67, 68],
    .parseSearchNames (coinsNamed [coinNamed [67] [68]]), .toggleIsFavorite 1]

instance (p : Pointer) (s : CryptoPriceList) : Decidable (Alone p s) :=
  inferInstanceAs (Decidable (∀ q ∈ s.list, _))

instance (data : List CoinJson) (s : CryptoPriceList) : Decidable (Known data s) :=
  inferInstanceAs (Decidable (∀ coinJson ∈ data, _))

instance (s : CryptoPriceList) (event : Event) : Decidable (Allowed s event) :=
  match event with
  | .parseSearchNames (some json) => inferInstanceAs (Decidable (Known json.data s))
  | .toggleIsFavorite p => inferInstanceAs (Decidable (Alone p s))
  | .parseSearchNames none => isTrue trivial
  | .parseNames _ => isTrue trivial
  | .parseValues _ => isTrue trivial
  | .setSearchText _ => isTrue trivial
  | .setIsShowOnlyFavorites _ => isTrue trivial

end CryptoPriceList
end Bettergram.Prices
