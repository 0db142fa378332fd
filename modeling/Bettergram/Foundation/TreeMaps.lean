import Mathlib.Data.Finset.Card
import Mathlib.Data.List.AList
import Mathlib.Algebra.BigOperators.Group.List.Basic
import Mathlib.Tactic.Abel

/-! # Ordered maps

Lookups after a change, and the set of the keys. When the smallest keys are
erased one by one, a key stays while there are enough smaller ones to go first.
-/

namespace Bettergram.Foundation
open Std

variable {α β : Type*} [Ord α] [TransOrd α]

theorem mem_iff_exists (t : TreeMap α β) (k : α) : k ∈ t ↔ ∃ v, t[k]? = some v := by
  rw [TreeMap.mem_iff_isSome_getElem?, Option.isSome_iff_exists]

theorem notMem_iff_none (t : TreeMap α β) (k : α) : k ∉ t ↔ t[k]? = none := by
  rw [TreeMap.mem_iff_isSome_getElem?, Bool.not_eq_true, Option.isSome_eq_false_iff,
    Option.isNone_iff_eq_none]

omit [TransOrd α] in
theorem values_eq_map (t : TreeMap α β) : t.values = t.toList.map (·.2) := by
  have hfold : t.values = t.foldr (fun _ v l => v :: l) [] := rfl
  rw [hfold, TreeMap.foldr_eq_foldr_toList]
  induction t.toList with
  | nil => rfl
  | cons x l ih => simp [ih]

variable [LawfulEqOrd α] [DecidableEq α]

omit [DecidableEq α] in
theorem mem_values {t : TreeMap α β} {v : β} : v ∈ t.values ↔ ∃ k : α, t[k]? = some v := by
  rw [values_eq_map, List.mem_map]
  constructor
  · rintro ⟨⟨k, w⟩, hmem, rfl⟩
    exact ⟨k, TreeMap.mem_toList_iff_getElem?_eq_some.mp hmem⟩
  · rintro ⟨k, hk⟩
    exact ⟨(k, v), TreeMap.mem_toList_iff_getElem?_eq_some.mpr hk, rfl⟩

@[simp] theorem erase_getElem? (t : TreeMap α β) (k a : α) :
    (t.erase k)[a]? = if k = a then none else t[a]? := by
  simp only [TreeMap.getElem?_erase, LawfulEqCmp.compare_eq_iff_eq]

@[simp] theorem insert_getElem? (t : TreeMap α β) (k a : α) (v : β) :
    (t.insert k v)[a]? = if k = a then some v else t[a]? := by
  simp only [TreeMap.getElem?_insert, LawfulEqCmp.compare_eq_iff_eq]

theorem insertIfNew_getElem? (t : TreeMap α β) (k a : α) (v : β) :
    (t.insertIfNew k v)[a]? = (t[a]?).or (if k = a then some v else none) := by
  simp only [TreeMap.getElem?_insertIfNew, LawfulEqCmp.compare_eq_iff_eq]
  by_cases hk : k = a
  · subst hk
    cases hfind : t[k]? with
    | none => simp [(notMem_iff_none t k).mpr hfind]
    | some w => simp [(mem_iff_exists t k).mpr ⟨w, hfind⟩]
  · simp [hk]

/-- The value of a key moves to another key. -/
def rename (t : TreeMap α β) (old new : α) : TreeMap α β :=
  match t[old]? with
  | some v => (t.erase old).insert new v
  | none => t

theorem rename_getElem? (t : TreeMap α β) (old new a : α) (hnew : t[new]? = none) :
    (rename t old new)[a]? =
      if new = a then t[old]? else if old = a then none else t[a]? := by
  cases hold : t[old]? with
  | none =>
    have hsame : rename t old new = t := by rw [rename, hold]
    rw [hsame]
    split_ifs with hn ho
    · rw [← hn, hnew]
    · rw [← ho, hold]
    · rfl
  | some v =>
    rw [rename, hold]
    simp only [insert_getElem?, erase_getElem?]

/-! ## The keys as a set -/

def keySet (t : TreeMap α β) : Finset α := t.keys.toFinset

@[simp] theorem mem_keySet {t : TreeMap α β} {k : α} : k ∈ keySet t ↔ k ∈ t := by
  rw [keySet, List.mem_toFinset, TreeMap.mem_keys]

omit [LawfulEqOrd α] in
theorem card_keySet (t : TreeMap α β) : (keySet t).card = t.size := by
  rw [keySet, List.toFinset_card_of_nodup TreeMap.nodup_keys, TreeMap.length_keys]

theorem keySet_erase (t : TreeMap α β) (k : α) : keySet (t.erase k) = (keySet t).erase k := by
  ext a
  rw [mem_keySet, TreeMap.mem_erase, ne_eq, LawfulEqCmp.compare_eq_iff_eq, Finset.mem_erase,
    mem_keySet, eq_comm]

theorem keySet_insert (t : TreeMap α β) (k : α) (v : β) :
    keySet (t.insert k v) = insert k (keySet t) := by
  ext a
  rw [mem_keySet, TreeMap.mem_insert, LawfulEqCmp.compare_eq_iff_eq, Finset.mem_insert,
    mem_keySet, eq_comm]

theorem size_erase_of_mem {t : TreeMap α β} {k : α} (h : k ∈ t) :
    (t.erase k).size + 1 = t.size := by
  rw [← card_keySet, keySet_erase, Finset.card_erase_add_one (mem_keySet.mpr h), card_keySet]

theorem size_erase_le (t : TreeMap α β) (k : α) : (t.erase k).size ≤ t.size := by
  rw [← card_keySet, keySet_erase, ← card_keySet t]
  exact Finset.card_le_card (Finset.erase_subset _ _)

end Bettergram.Foundation

/-! ## Sums over the entries of a map

A total kept beside a map is right when each change adds what the new entry is
worth and takes off what the old one was worth.
-/

namespace Bettergram.Foundation

variable {α β M : Type*} [AddCommGroup M]

/-- The sum of the worth of all entries. -/
def mapSum (worth : β → M) (m : AList fun _ : α => β) : M :=
  (m.entries.map fun e => worth e.2).sum

variable (worth : β → M)

theorem mapSum_perm {m m' : AList fun _ : α => β} (h : m.entries.Perm m'.entries) :
    mapSum worth m = mapSum worth m' :=
  (h.map _).sum_eq

variable [DecidableEq α]

/-- The worth of the entry of a key, zero when there is none. -/
def worthAt (m : AList fun _ : α => β) (key : α) : M := ((m.lookup key).map worth).getD 0

/-- An entry and the rest of the map make up the sum. -/
theorem mapSum_split (m : AList fun _ : α => β) (key : α) :
    mapSum worth m = worthAt worth m key + mapSum worth (m.erase key) := by
  by_cases hkey : key ∈ m
  · obtain ⟨value, before, after, -, hentries, herase⟩ := List.exists_of_kerase hkey
    have hlookup : m.lookup key = some value := by
      rw [← AList.mem_lookup_iff.mpr (show Sigma.mk key value ∈ m.entries by simp [hentries])]
    have hrest : (m.erase key).entries = before ++ after := herase
    simp only [mapSum, worthAt, hlookup, hrest, hentries, List.map_append, List.map_cons,
      List.sum_append, List.sum_cons, Option.map_some, Option.getD_some]
    abel
  · have hlookup : m.lookup key = none := AList.lookup_eq_none.mpr hkey
    have hrest : (m.erase key).entries = m.entries := List.kerase_of_notMem_keys hkey
    simp [mapSum, worthAt, hlookup, hrest]

theorem mapSum_erase (m : AList fun _ : α => β) (key : α) :
    mapSum worth (m.erase key) = mapSum worth m - worthAt worth m key := by
  rw [mapSum_split worth m key]
  abel

theorem mapSum_insert (m : AList fun _ : α => β) (key : α) (value : β) :
    mapSum worth (m.insert key value) =
      mapSum worth m + (worth value - worthAt worth m key) := by
  have hentries : (m.insert key value).entries = ⟨key, value⟩ :: (m.erase key).entries :=
    AList.entries_insert
  have herase := mapSum_erase worth m key
  simp only [mapSum, hentries, List.map_cons, List.sum_cons] at herase ⊢
  rw [herase]
  abel

/-- A change that keeps the worth of an entry keeps the sum. -/
theorem mapSum_insert_same {m : AList fun _ : α => β} {key : α} {old value : β}
    (hold : m.lookup key = some old) (h : worth value = worth old) :
    mapSum worth (m.insert key value) = mapSum worth m := by
  rw [mapSum_insert, worthAt, hold, h]
  simp

end Bettergram.Foundation
