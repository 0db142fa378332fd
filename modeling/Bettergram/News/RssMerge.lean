import Bettergram.News.RssChannel

/-! # Merging a feed

While no two items have one link, a merge refreshes the items with the link of the entry and
adds the entry if there are none. After all entries every old item is refreshed with the last
entry of its link, and the rest of the list was added from the feed.
-/

namespace Bettergram.News
namespace RssChannel

/-- The links in the order of the items. -/
def links (list : List RssItem) : List QUrl := list.map fun item => item.link

/-- The latest valid entry with the link. -/
def latest (entries : List Entry) (link : QUrl) : Option Entry :=
  entries.reverse.find? fun entry => entry.isValid && entry.link == link

/-- What a merge does to an item that is in the list. -/
def refresh (entry : Entry) (item : RssItem) : RssItem :=
  if entry.isValid ∧ item.link = entry.link then item.update entry else item

def refreshAll (entries : List Entry) (item : RssItem) : RssItem :=
  entries.foldl (fun item entry => refresh entry item) item

@[simp] theorem update_link (entry : Entry) (item : RssItem) :
    (item.update entry).link = entry.link := rfl

@[simp] theorem update_isRead (entry : Entry) (item : RssItem) :
    (item.update entry).isRead = item.isRead := rfl

@[simp] theorem refresh_link (entry : Entry) (item : RssItem) :
    (refresh entry item).link = item.link := by
  unfold refresh
  split_ifs with h
  · exact h.2.symm
  · rfl

@[simp] theorem refresh_isRead (entry : Entry) (item : RssItem) :
    (refresh entry item).isRead = item.isRead := by
  unfold refresh
  split_ifs <;> rfl

@[simp] theorem links_map_refresh (entry : Entry) (list : List RssItem) :
    links (list.map (refresh entry)) = links list := by
  simp [links, List.map_map, Function.comp_def]

theorem refreshAll_append (entries : List Entry) (entry : Entry) (item : RssItem) :
    refreshAll (entries ++ [entry]) item = refresh entry (refreshAll entries item) := by
  rw [refreshAll, List.foldl_append]
  rfl

theorem latest_append (entries : List Entry) (entry : Entry) (link : QUrl) :
    latest (entries ++ [entry]) link =
      if entry.isValid ∧ link = entry.link then some entry else latest entries link := by
  rw [latest, List.reverse_append, List.reverse_singleton, List.singleton_append, List.find?_cons]
  by_cases h : entry.isValid ∧ link = entry.link
  · rw [if_pos h]
    simp [h.1, h.2]
  · rw [if_neg h]
    have hno : (entry.isValid && entry.link == link) = false := by
      rw [Bool.and_eq_false_iff]
      by_cases hvalid : entry.isValid = true
      · refine .inr (beq_eq_false_iff_ne.mpr fun heq => h ⟨hvalid, heq.symm⟩)
      · exact .inl (Bool.eq_false_of_not_eq_true hvalid)
    rw [hno]
    rfl

theorem latest_link {entries : List Entry} {link : QUrl} {entry : Entry}
    (h : latest entries link = some entry) :
    entry ∈ entries ∧ entry.isValid = true ∧ entry.link = link := by
  have hfound := List.find?_some h
  rw [Bool.and_eq_true, beq_iff_eq] at hfound
  exact ⟨List.mem_reverse.mp (List.mem_of_find?_eq_some h), hfound⟩

/-- An entry of the feed has a latest one. -/
theorem latest_isSome {entries : List Entry} {entry : Entry} (hmem : entry ∈ entries)
    (hvalid : entry.isValid = true) : (latest entries entry.link).isSome = true := by
  rw [latest, List.find?_isSome]
  exact ⟨entry, List.mem_reverse.mpr hmem, by simp [hvalid]⟩

/-! ## An item that was in the list -/

@[simp] theorem refreshAll_link (entries : List Entry) (item : RssItem) :
    (refreshAll entries item).link = item.link := by
  induction entries using List.reverseRecOn with
  | nil => rfl
  | append_singleton entries entry ih => rw [refreshAll_append, refresh_link, ih]

@[simp] theorem refreshAll_isRead (entries : List Entry) (item : RssItem) :
    (refreshAll entries item).isRead = item.isRead := by
  induction entries using List.reverseRecOn with
  | nil => rfl
  | append_singleton entries entry ih => rw [refreshAll_append, refresh_isRead, ih]

theorem refreshAll_of_none {entries : List Entry} {item : RssItem}
    (h : latest entries item.link = none) : refreshAll entries item = item := by
  induction entries using List.reverseRecOn with
  | nil => rfl
  | append_singleton entries entry ih =>
    rw [latest_append] at h
    by_cases hentry : entry.isValid ∧ item.link = entry.link
    · rw [if_pos hentry] at h
      cases h
    · rw [if_neg hentry] at h
      rw [refreshAll_append, ih h, refresh, if_neg hentry]

theorem refreshAll_of_some {entries : List Entry} {item : RssItem} {entry : Entry}
    (h : latest entries item.link = some entry) :
    (refreshAll entries item).toItemData = entry.toItemData ∧
      (refreshAll entries item).isExistAtLastFeeds = true := by
  induction entries using List.reverseRecOn with
  | nil => cases h
  | append_singleton entries last ih =>
    rw [latest_append] at h
    rw [refreshAll_append]
    by_cases hlast : last.isValid ∧ item.link = last.link
    · rw [if_pos hlast] at h
      cases h
      rw [refresh, if_pos ⟨hlast.1, by rw [refreshAll_link]; exact hlast.2⟩]
      exact ⟨rfl, rfl⟩
    · rw [if_neg hlast] at h
      rw [refresh, if_neg (by rwa [refreshAll_link])]
      exact ih h

/-! ## The whole list -/

theorem find_cons (entry : Entry) (item : RssItem) (list : List RssItem) :
    find entry (item :: list) =
      if item.link = entry.link then some 0 else (find entry list).map (· + 1) := by
  rw [find, List.findIdx?_cons]
  by_cases h : item.link = entry.link
  · simp [RssItem.equalsTo, h]
  · simp [RssItem.equalsTo, h, find]

theorem find_none {entry : Entry} {list : List RssItem} :
    find entry list = none ↔ entry.link ∉ links list := by
  simp [find, links, List.findIdx?_eq_none_iff, RssItem.equalsTo]

theorem map_refresh_of_not_mem {entry : Entry} {list : List RssItem}
    (h : entry.link ∉ links list) : list.map (refresh entry) = list := by
  conv_rhs => rw [← List.map_id list]
  refine List.map_congr_left fun item hitem => ?_
  rw [refresh, if_neg]
  · rfl
  · rintro ⟨-, hlink⟩
    exact h (List.mem_map.mpr ⟨item, hitem, hlink⟩)

theorem modify_find {entry : Entry} (hvalid : entry.isValid = true) {list : List RssItem}
    (hunique : (links list).Nodup) {index : ℕ} (h : find entry list = some index) :
    list.modify index (RssItem.update entry) = list.map (refresh entry) := by
  induction list generalizing index with
  | nil => cases h
  | cons item list ih =>
    obtain ⟨hnew, hrest⟩ := List.nodup_cons.mp hunique
    rw [find_cons] at h
    by_cases hlink : item.link = entry.link
    · rw [if_pos hlink] at h
      cases h
      have hother : entry.link ∉ links list := hlink ▸ hnew
      rw [List.modify_zero_cons, List.map_cons, map_refresh_of_not_mem hother, refresh,
        if_pos ⟨hvalid, hlink⟩]
    · rw [if_neg hlink, Option.map_eq_some_iff] at h
      obtain ⟨i, hi, rfl⟩ := h
      rw [List.modify_succ_cons, List.map_cons, ih hrest hi, refresh,
        if_neg fun hsame => hlink hsame.2]

/-- One merge: refreshed items, and the entry if it is new. -/
theorem merge_eq {list : List RssItem} (hunique : (links list).Nodup) (entry : Entry) :
    merge list entry = list.map (refresh entry) ++
      if entry.isValid ∧ entry.link ∉ links list then [{ toEntry := entry }] else [] := by
  by_cases hvalid : entry.isValid = true
  · rw [merge, if_pos hvalid]
    cases hfind : find entry list with
    | none =>
      have hnew := find_none.mp hfind
      simp only [add]
      rw [if_pos hvalid, map_refresh_of_not_mem hnew, if_pos ⟨hvalid, hnew⟩]
    | some index =>
      have hold : ¬(entry.isValid ∧ entry.link ∉ links list) := by
        rintro ⟨-, hnew⟩
        rw [find_none.mpr hnew] at hfind
        cases hfind
      simp only
      rw [modify_find hvalid hunique hfind, if_neg hold, List.append_nil]
  · have hsame : list.map (refresh entry) = list := by
      conv_rhs => rw [← List.map_id list]
      exact List.map_congr_left fun item _ => if_neg fun h => hvalid h.1
    rw [merge, if_neg hvalid, if_neg fun h => hvalid h.1, hsame, List.append_nil]

/-- What the feed added: the latest entries of links that were not in the list. -/
structure Added (entries : List Entry) (old added : List RssItem) : Prop where
  data : ∀ item ∈ added, ∃ entry, latest entries item.link = some entry ∧
    item.toItemData = entry.toItemData
  present : ∀ item ∈ added, item.isExistAtLastFeeds = true
  unread : ∀ item ∈ added, item.isRead = false
  unique : (links old ++ links added).Nodup
  covers : ∀ entry ∈ entries, entry.isValid = true → entry.link ∈ links old ++ links added

theorem Added.append {entries : List Entry} {old added : List RssItem}
    (h : Added entries old added) (entry : Entry) :
    Added (entries ++ [entry]) old (added.map (refresh entry) ++
      if entry.isValid ∧ entry.link ∉ links old ++ links added then [{ toEntry := entry }]
      else []) := by
  have hrefreshed : ∀ item ∈ added.map (refresh entry),
      (∃ last, latest (entries ++ [entry]) item.link = some last ∧
        item.toItemData = last.toItemData) ∧
        item.isExistAtLastFeeds = true ∧ item.isRead = false := by
    intro item hitem
    obtain ⟨item, hmem, rfl⟩ := List.mem_map.mp hitem
    rw [latest_append, refresh_link, refresh_isRead]
    by_cases hsame : entry.isValid ∧ item.link = entry.link
    · rw [if_pos hsame, refresh, if_pos hsame]
      exact ⟨⟨entry, rfl, rfl⟩, rfl, h.unread item hmem⟩
    · rw [if_neg hsame, refresh, if_neg hsame]
      exact ⟨h.data item hmem, h.present item hmem, h.unread item hmem⟩
  by_cases hnew : entry.isValid ∧ entry.link ∉ links old ++ links added
  · rw [if_pos hnew]
    have hlinks : links (added.map (refresh entry) ++ [{ toEntry := entry }]) =
        links added ++ [entry.link] := by
      rw [links, List.map_append]
      exact congrArg (· ++ [entry.link]) (links_map_refresh entry added)
    have hlast : ∃ last, latest (entries ++ [entry]) entry.link = some last ∧
        entry.toItemData = last.toItemData := by
      rw [latest_append, if_pos ⟨hnew.1, rfl⟩]
      exact ⟨entry, rfl, rfl⟩
    refine {
      data := ?_
      present := ?_
      unread := ?_
      unique := ?_
      covers := ?_ }
    · intro item hitem
      rcases List.mem_append.mp hitem with hitem | hitem
      · exact (hrefreshed item hitem).1
      · rw [List.mem_singleton.mp hitem]
        exact hlast
    · intro item hitem
      rcases List.mem_append.mp hitem with hitem | hitem
      · exact (hrefreshed item hitem).2.1
      · rw [List.mem_singleton.mp hitem]
    · intro item hitem
      rcases List.mem_append.mp hitem with hitem | hitem
      · exact (hrefreshed item hitem).2.2
      · rw [List.mem_singleton.mp hitem]
    · rw [hlinks, ← List.append_assoc]
      exact List.nodup_append_comm.mp (List.nodup_cons.mpr ⟨hnew.2, h.unique⟩)
    · intro other hother hvalid
      rw [hlinks, ← List.append_assoc]
      rcases List.mem_append.mp hother with hother | hother
      · exact List.mem_append_left _ (h.covers other hother hvalid)
      · rw [List.mem_singleton.mp hother]
        exact List.mem_append_right _ (List.mem_singleton.mpr rfl)
  · rw [if_neg hnew, List.append_nil]
    refine {
      data := fun item hitem => (hrefreshed item hitem).1
      present := fun item hitem => (hrefreshed item hitem).2.1
      unread := fun item hitem => (hrefreshed item hitem).2.2
      unique := by rw [links_map_refresh]; exact h.unique
      covers := ?_ }
    intro other hother hvalid
    rw [links_map_refresh]
    rcases List.mem_append.mp hother with hother | hother
    · exact h.covers other hother hvalid
    · rw [List.mem_singleton.mp hother] at hvalid ⊢
      by_contra hmissing
      exact hnew ⟨hvalid, hmissing⟩

/-- All merges of a feed. -/
theorem foldl_merge {old : List RssItem} (hunique : (links old).Nodup) (entries : List Entry) :
    ∃ added, entries.foldl merge old = old.map (refreshAll entries) ++ added ∧
      Added entries old added := by
  induction entries using List.reverseRecOn with
  | nil =>
    refine ⟨[], ?_, ?_⟩
    · rw [List.append_nil]
      exact (List.map_id old).symm
    · exact {
        data := by simp
        present := by simp
        unread := by simp
        unique := by simpa [links] using hunique
        covers := by simp }
  | append_singleton entries entry ih =>
    obtain ⟨added, hfold, hadded⟩ := ih
    have hlinks : links (old.map (refreshAll entries) ++ added) = links old ++ links added := by
      simp [links, List.map_map, Function.comp_def]
    refine ⟨_, ?_, hadded.append entry⟩
    rw [List.foldl_append, List.foldl_cons, List.foldl_nil, hfold,
      merge_eq (by rw [hlinks]; exact hadded.unique), hlinks, List.map_append, List.map_map,
      List.append_assoc]
    refine congrArg (· ++ _) (List.map_congr_left fun item _ => ?_)
    exact (refreshAll_append entries entry item).symm

end RssChannel
end Bettergram.News
