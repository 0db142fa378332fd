import Bettergram.Prices.CryptoPriceList

/-! # The favourites of the price list

The mark of each coin in the list is what the settings say. New coins of a names download load
it, a toggle changes both, and everything else leaves the marks and the settings alone.
-/

namespace Bettergram.Prices
open Bettergram.Ui.Text (QString)

namespace Saved

variable {saved : Saved} {key other : QString}

theorem value_setValue_self : (saved.setValue key).value key = true := by
  unfold setValue value
  split_ifs with h
  · exact h
  · simp

theorem value_setValue_of_ne (h : normalizedKey other ≠ normalizedKey key) :
    (saved.setValue key).value other = saved.value other := by
  unfold setValue value
  split_ifs
  · rfl
  · simp [h]

theorem value_remove_self : (saved.remove key).value key = false := by
  simp [value, remove]

theorem value_remove_of_not_prefix (h : ¬normalizedKey key <+: normalizedKey other) :
    (saved.remove key).value other = saved.value other := by
  have hother : (normalizedKey key).isPrefixOf (normalizedKey other) = false := by
    rw [Bool.eq_false_iff, ne_eq, List.isPrefixOf_iff_prefix]
    exact h
  simp [value, remove, hother]

theorem setValue_of_value (h : saved.value key = true) : saved.setValue key = saved :=
  if_pos h

end Saved

/-! ## Keys -/

/-- A coin that no other coin can be confused with. -/
def Plain (name shortName : QString) : Prop :=
  '/'.toNat ∉ name ∧ '/'.toNat ∉ shortName ∧ '_'.toNat ∉ shortName

theorem normalizedKey_of_not_mem {key : QString} (hslash : '/'.toNat ∉ key) (hne : key ≠ []) :
    normalizedKey key = [key] := by
  rw [normalizedKey, List.splitOn_eq_singleton hslash]
  simp [hne]

/-- The last underscore ends the name. -/
theorem joined_inj {name shortName name' shortName' : QString} (h : '_'.toNat ∉ shortName)
    (h' : '_'.toNat ∉ shortName') (heq : joined name shortName = joined name' shortName') :
    name = name' ∧ shortName = shortName' := by
  have hreverse := congrArg List.reverse heq
  simp only [joined, List.reverse_append, List.reverse_cons, List.append_assoc,
    List.singleton_append] at hreverse
  have htake : ∀ {code rest : QString}, '_'.toNat ∉ code →
      (code.reverse ++ '_'.toNat :: rest).takeWhile (· ≠ '_'.toNat) = code.reverse := by
    intro code rest hcode
    rw [List.takeWhile_append_of_pos, List.takeWhile_cons_of_neg (by simp), List.append_nil]
    intro c hc
    simp only [ne_eq, decide_eq_true_eq]
    rintro rfl
    exact hcode (List.mem_reverse.mp hc)
  have hcode := congrArg (List.takeWhile (· ≠ '_'.toNat)) hreverse
  rw [htake h, htake h', List.reverse_inj] at hcode
  subst hcode
  have hname := List.append_inj_left' heq rfl
  exact ⟨hname, rfl⟩

theorem normalizedKey_ne {name shortName name' shortName' : QString} (h : Plain name shortName)
    (h' : Plain name' shortName') (hne : (name, shortName) ≠ (name', shortName')) :
    normalizedKey (joined name shortName) ≠ normalizedKey (joined name' shortName') := by
  have hsingle : ∀ {a b : QString}, Plain a b → normalizedKey (joined a b) = [joined a b] := by
    intro a b hplain
    refine normalizedKey_of_not_mem ?_ (by simp [joined])
    rw [joined, List.mem_append, List.mem_cons, not_or, not_or]
    exact ⟨hplain.1, by decide, hplain.2.1⟩
  rw [hsingle h, hsingle h', ne_eq, List.singleton_inj]
  intro heq
  obtain ⟨rfl, rfl⟩ := joined_inj h.2.2 h'.2.2 heq
  exact hne rfl

namespace CryptoPriceList

variable {tables : CharTables} {s s' : CryptoPriceList} {p : Pointer}

/-! ## What is kept -/

/-- The name and the code of a coin. -/
def identity (price : CryptoPrice) : QString × QString := (price.name, price.shortName)

/-- The mark of each coin in the list is what is saved, and no coin is in the list twice. -/
structure Sound (s : CryptoPriceList) : Prop where
  fresh : ∀ p ∈ s.list, p < s.next
  unique : (s.list.map fun p => identity (s.coins p)).Nodup
  flags : ∀ p ∈ s.list,
    (s.coins p).isFavorite = s.saved.value (s.coins p).nameAndShortName

/-- The favourites are the marked coins, each once. -/
structure Shown (s : CryptoPriceList) : Prop where
  nodup : s.favoriteList.Nodup
  mem_iff : ∀ p, p ∈ s.favoriteList ↔ p ∈ s.list ∧ (s.coins p).isFavorite = true

/-- The same coins with the same marks are in the same lists. -/
structure Same (s s' : CryptoPriceList) : Prop where
  identity_eq : ∀ p, identity (s'.coins p) = identity (s.coins p)
  isFavorite_eq : ∀ p, (s'.coins p).isFavorite = (s.coins p).isFavorite
  list_eq : s'.list = s.list
  next_eq : s'.next = s.next
  favoriteList_eq : s'.favoriteList = s.favoriteList
  isShowOnlyFavorites_eq : s'.isShowOnlyFavorites = s.isShowOnlyFavorites
  saved_eq : s'.saved = s.saved

theorem Same.refl (s : CryptoPriceList) : Same s s :=
  ⟨fun _ => rfl, fun _ => rfl, rfl, rfl, rfl, rfl, rfl⟩

theorem Same.trans {s'' : CryptoPriceList} (h : Same s s') (h' : Same s' s'') : Same s s'' where
  identity_eq p := (h'.identity_eq p).trans (h.identity_eq p)
  isFavorite_eq p := (h'.isFavorite_eq p).trans (h.isFavorite_eq p)
  list_eq := h'.list_eq.trans h.list_eq
  next_eq := h'.next_eq.trans h.next_eq
  favoriteList_eq := h'.favoriteList_eq.trans h.favoriteList_eq
  isShowOnlyFavorites_eq := h'.isShowOnlyFavorites_eq.trans h.isShowOnlyFavorites_eq
  saved_eq := h'.saved_eq.trans h.saved_eq

theorem nameAndShortName_eq {a b : CryptoPrice} (h : identity a = identity b) :
    a.nameAndShortName = b.nameAndShortName := by
  obtain ⟨hname, hcode⟩ := Prod.mk.inj h
  rw [CryptoPrice.nameAndShortName, CryptoPrice.nameAndShortName, hname, hcode]

theorem Same.sound (h : Same s s') (hs : Sound s) : Sound s' where
  fresh p hp := by
    rw [h.next_eq]
    rw [h.list_eq] at hp
    exact hs.fresh p hp
  unique := by
    simp only [h.identity_eq, h.list_eq]
    exact hs.unique
  flags p hp := by
    rw [h.list_eq] at hp
    rw [h.isFavorite_eq, h.saved_eq, nameAndShortName_eq (h.identity_eq p)]
    exact hs.flags p hp

theorem Same.shown (h : Same s s') (hs : Shown s) : Shown s' where
  nodup := by
    rw [h.favoriteList_eq]
    exact hs.nodup
  mem_iff p := by
    rw [h.favoriteList_eq, h.list_eq, h.isFavorite_eq]
    exact hs.mem_iff p

/-- Data of a coin may change. -/
theorem same_modifyCoin (s : CryptoPriceList) (p : Pointer) {f : CryptoPrice → CryptoPrice}
    (hidentity : ∀ price, identity (f price) = identity price)
    (hfavorite : ∀ price, (f price).isFavorite = price.isFavorite) :
    Same s (s.modifyCoin p f) where
  identity_eq q := by
    by_cases h : q = p
    · subst h
      simp [modifyCoin, hidentity]
    · simp [modifyCoin, h]
  isFavorite_eq q := by
    by_cases h : q = p
    · subst h
      simp [modifyCoin, hfavorite]
    · simp [modifyCoin, h]
  list_eq := rfl
  next_eq := rfl
  favoriteList_eq := rfl
  isShowOnlyFavorites_eq := rfl
  saved_eq := rfl

theorem identity_setChangeFor24Hours (change : Option ℚ) (price : CryptoPrice) :
    identity (price.setChangeFor24Hours change) = identity price ∧
      (price.setChangeFor24Hours change).isFavorite = price.isFavorite := by
  unfold CryptoPrice.setChangeFor24Hours
  split_ifs <;> exact ⟨rfl, rfl⟩

theorem same_updateData (s : CryptoPriceList) (p : Pointer) (data : CryptoPrice) :
    Same s (s.modifyCoin p (CryptoPrice.updateData data)) :=
  same_modifyCoin s p (fun price => (identity_setChangeFor24Hours _ price).1)
    fun price => (identity_setChangeFor24Hours _ price).2

/-! ## New coins -/

theorem findByName_eq_none {name shortName : QString} :
    s.findByName name shortName = none ↔
      (name, shortName) ∉ s.list.map fun p => identity (s.coins p) := by
  rw [findByName, List.find?_eq_none, List.mem_map, not_exists]
  refine forall_congr' fun p => ?_
  rw [not_and]
  refine imp_congr_right fun _ => not_congr ?_
  rw [Bool.and_eq_true, beq_iff_eq, beq_iff_eq, identity, Prod.mk.injEq]

theorem findByName_eq_some {name shortName : QString}
    (h : s.findByName name shortName = some p) :
    p ∈ s.list ∧ identity (s.coins p) = (name, shortName) := by
  have hfound := List.find?_some h
  rw [Bool.and_eq_true, beq_iff_eq, beq_iff_eq] at hfound
  exact ⟨List.mem_of_find?_eq_some h, Prod.ext hfound.1 hfound.2⟩

/-- The list with a new coin at its end. -/
def insertCoin (price : CryptoPrice) (s : CryptoPriceList) : CryptoPriceList :=
  (s.allocate price).addPrivate s.next

theorem insertCoin_coins_of_mem (hs : Sound s) (price : CryptoPrice) {q : Pointer}
    (hq : q ∈ s.list) : (s.insertCoin price).coins q = s.coins q :=
  Function.update_of_ne (hs.fresh q hq).ne _ _

theorem insertCoin_coins_next (price : CryptoPrice) :
    (s.insertCoin price).coins s.next = price := Function.update_self _ _ _

theorem Sound.insertCoin (hs : Sound s) {price : CryptoPrice}
    (hnew : s.findByName price.name price.shortName = none)
    (hflag : price.isFavorite = s.saved.value price.nameAndShortName) :
    Sound (s.insertCoin price) where
  fresh q hq := by
    rcases List.mem_append.mp hq with hq | hq
    · exact Nat.lt_succ_of_lt (hs.fresh q hq)
    · rw [List.mem_singleton.mp hq]
      exact Nat.lt_succ_self _
  unique := by
    have hold : (s.list.map fun q => identity ((s.insertCoin price).coins q)) =
        s.list.map fun q => identity (s.coins q) :=
      List.map_congr_left fun q hq => by rw [insertCoin_coins_of_mem hs price hq]
    have hlist : (s.insertCoin price).list = s.list ++ [s.next] := rfl
    rw [hlist, List.map_append, hold, List.map_singleton, insertCoin_coins_next]
    exact List.nodup_append_comm.mp
      (List.nodup_cons.mpr ⟨findByName_eq_none.mp hnew, hs.unique⟩)
  flags q hq := by
    change _ = s.saved.value _
    rcases List.mem_append.mp hq with hq | hq
    · rw [insertCoin_coins_of_mem hs price hq]
      exact hs.flags q hq
    · rw [List.mem_singleton.mp hq, insertCoin_coins_next]
      exact hflag

theorem Shown.insertCoin (hs : Sound s) (h : Shown s) {price : CryptoPrice}
    (hflag : price.isFavorite = false) : Shown (s.insertCoin price) where
  nodup := h.nodup
  mem_iff q := by
    have hlist : q ∈ (s.insertCoin price).list ↔ q ∈ s.list ∨ q = s.next := by
      change q ∈ s.list ++ [s.next] ↔ _
      rw [List.mem_append, List.mem_singleton]
    change q ∈ s.favoriteList ↔ _
    rw [h.mem_iff, hlist]
    by_cases hq : q ∈ s.list
    · rw [insertCoin_coins_of_mem hs price hq]
      simp [hq]
    · constructor
      · rintro ⟨hmem, -⟩
        exact absurd hmem hq
      · rintro ⟨hmem, hfavorite⟩
        rw [hmem.resolve_left hq, insertCoin_coins_next, hflag] at hfavorite
        cases hfavorite

/-! ## Names -/

/-- A new coin of a download gets the saved mark; nothing is saved again. -/
theorem loadIsFavorite_allocate (s : CryptoPriceList) {price : CryptoPrice}
    (hflag : price.isFavorite = false) :
    ((s.allocate price).loadIsFavorite s.next).addPrivate s.next =
      s.insertCoin { price with isFavorite := s.saved.value price.nameAndShortName } := by
  have hcoin : (s.allocate price).coins s.next = price := Function.update_self _ _ _
  have hsaved : (s.allocate price).saved = s.saved := rfl
  unfold loadIsFavorite setIsFavorite
  rw [hcoin, hsaved, hflag]
  cases hvalue : s.saved.value price.nameAndShortName with
  | false =>
    rw [if_neg (by simp), ← hflag]
    rfl
  | true =>
    rw [if_pos (by simp), if_pos rfl, Saved.setValue_of_value hvalue]
    simp [CryptoPriceList.insertCoin, allocate, addPrivate, modifyCoin]

theorem Sound.mergePrice (hs : Sound s) {price : CryptoPrice} (hflag : price.isFavorite = false) :
    Sound (s.mergePrice price) := by
  unfold CryptoPriceList.mergePrice
  split
  · exact (same_updateData s _ price).sound hs
  · next hnew =>
    rw [loadIsFavorite_allocate s hflag]
    exact hs.insertCoin hnew rfl

theorem Sound.mergeCryptoPriceList (hs : Sound s) {priceList : List CryptoPrice}
    (hflags : ∀ price ∈ priceList, price.isFavorite = false) :
    Sound (s.mergeCryptoPriceList priceList) := by
  have hkept : Sound (s.removeOldPrices priceList) := {
    fresh := fun p hp => hs.fresh p (List.mem_of_mem_filter hp)
    unique := hs.unique.sublist (List.filter_sublist.map _)
    flags := fun p hp => hs.flags p (List.mem_of_mem_filter hp) }
  unfold CryptoPriceList.mergeCryptoPriceList
  generalize s.removeOldPrices priceList = s₀ at hkept
  induction priceList generalizing s₀ with
  | nil => exact hkept
  | cons price priceList ih =>
    exact ih (fun other hother => hflags other (List.mem_cons_of_mem _ hother)) _
      (hkept.mergePrice (hflags price List.mem_cons_self))

/-- The list of favourites is made again. -/
theorem shown_updateFavoriteList (hs : Sound s) (h : s.isShowOnlyFavorites = true) :
    Shown s.updateFavoriteList := by
  have hlist : s.updateFavoriteList.favoriteList =
      s.list.filter fun p => (s.coins p).isFavorite := if_pos h
  exact {
    nodup := by
      rw [hlist]
      exact (List.Nodup.of_map _ hs.unique).filter _
    mem_iff := fun p => by
      rw [hlist, List.mem_filter]
      exact Iff.rfl }

theorem parseCoin_isFavorite {json : NamesJson} {coinJson : CoinJson} {price : CryptoPrice}
    (h : parseCoin tables json coinJson = some price) : price.isFavorite = false := by
  unfold parseCoin at h
  split at h
  · obtain ⟨addresses, -, rfl⟩ := Option.map_eq_some_iff.mp h
    rfl
  · cases h

end CryptoPriceList

end Bettergram.Prices
