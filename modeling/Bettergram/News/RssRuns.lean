import Bettergram.News.RssMerge

/-! # Runs of feeds

After any feeds, and any items marked as read between them, the channel has the items of the
last feed with their latest data, and of the others those that are young enough. The number of
unread items is right only while as many items are read.
-/

namespace Bettergram.News
namespace RssChannel

def dates (list : List RssItem) : List ℤ := list.map fun item => item.publishDate.getD 0

/-- What the last feed has to do with the list before it and the list after it. -/
structure Merged (entries : List Entry) (now : ℕ → ℤ) (before after : List RssItem) : Prop where
  present : ∀ entry ∈ entries, entry.isValid = true → ∃ item ∈ after, item.link = entry.link
  data : ∀ item ∈ after, ∀ entry, latest entries item.link = some entry →
    item.toItemData = entry.toItemData
  read : ∀ old ∈ before, old.isRead = true → ∀ item ∈ after, item.link = old.link →
    item.isRead = true
  kept : ∀ (index : ℕ) (old : RssItem), before[index]? = some old →
    latest entries old.link = none →
    ((∃ item ∈ after, item.link = old.link) ↔ old.isOld (now index) = false)
  unchanged : ∀ old ∈ before, latest entries old.link = none → ∀ item ∈ after,
    item.link = old.link → item.toItemData = old.toItemData
  origin : ∀ item ∈ after, item.link ∈ links before ∨ latest entries item.link ≠ none

/-! ## One feed -/

theorem mem_removeOldItems {item : RssItem} {list : List RssItem} {now : ℕ → ℤ} :
    item ∈ removeOldItems now list ↔ ∃ index : ℕ, list[index]? = some item ∧
      (item.isExistAtLastFeeds = true ∨ item.isOld (now index) = false) := by
  induction list generalizing now with
  | nil => simp [removeOldItems]
  | cons first list ih =>
    have hcons : (∃ index : ℕ, (first :: list)[index]? = some item ∧
        (item.isExistAtLastFeeds = true ∨ item.isOld (now index) = false)) ↔
        (first = item ∧ (item.isExistAtLastFeeds = true ∨ item.isOld (now 0) = false)) ∨
        ∃ index : ℕ, list[index]? = some item ∧
          (item.isExistAtLastFeeds = true ∨ item.isOld (now (index + 1)) = false) := by
      constructor
      · rintro ⟨_ | index, hget, hkept⟩
        · exact .inl ⟨Option.some.inj hget, hkept⟩
        · exact .inr ⟨index, hget, hkept⟩
      · rintro (⟨rfl, hkept⟩ | ⟨index, hget, hkept⟩)
        · exact ⟨0, rfl, hkept⟩
        · exact ⟨index + 1, hget, hkept⟩
    rw [hcons, ← ih, removeOldItems]
    by_cases hold : (!first.isExistAtLastFeeds && first.isOld (now 0)) = true
    · rw [if_pos hold]
      have hgone : ¬(first = item ∧
          (item.isExistAtLastFeeds = true ∨ item.isOld (now 0) = false)) := by
        rintro ⟨rfl, hkept⟩
        rw [Bool.and_eq_true, Bool.not_eq_true'] at hold
        rcases hkept with hkept | hkept
        · rw [hold.1] at hkept
          cases hkept
        · rw [hold.2] at hkept
          cases hkept
      exact (or_iff_right hgone).symm
    · rw [if_neg hold, List.mem_cons, eq_comm]
      refine or_congr_left (and_iff_left_of_imp ?_).symm
      rintro rfl
      rw [Bool.and_eq_true, Bool.not_eq_true', not_and_or, Bool.not_eq_false,
        Bool.not_eq_true] at hold
      exact hold

theorem removeOldItems_sublist (now : ℕ → ℤ) (list : List RssItem) :
    (removeOldItems now list).Sublist list := by
  induction list generalizing now with
  | nil => exact List.Sublist.refl _
  | cons item list ih =>
    rw [removeOldItems]
    split_ifs
    · exact (ih _).cons _
    · exact (ih _).cons₂ _

/-- The items of one link are one item. -/
theorem eq_of_link {list : List RssItem} (hunique : (links list).Nodup) {a b : RssItem}
    (ha : a ∈ list) (hb : b ∈ list) (h : a.link = b.link) : a = b :=
  List.inj_on_of_nodup_map hunique ha hb h

/-- The list that a feed without errors leaves, before it is sorted. -/
theorem merged_removeOldItems {before : List RssItem} (hunique : (links before).Nodup)
    (entries : List Entry) (now : ℕ → ℤ) :
    let merged := entries.foldl merge (before.map (RssItem.setIsExistAtLastFeeds false))
    (links (removeOldItems now merged)).Nodup ∧
      Merged entries now before (removeOldItems now merged) := by
  intro merged
  have hold : links (before.map (RssItem.setIsExistAtLastFeeds false)) = links before := by
    simp [links, List.map_map, Function.comp_def, RssItem.setIsExistAtLastFeeds]
  obtain ⟨added, hmerged, hadded⟩ := foldl_merge (hold.symm ▸ hunique) entries
  rw [List.map_map] at hmerged
  change merged = _ at hmerged
  set refreshed : RssItem → RssItem :=
    refreshAll entries ∘ RssItem.setIsExistAtLastFeeds false with hrefreshed
  have hlink : ∀ old, (refreshed old).link = old.link := fun old => refreshAll_link _ _
  have hlinks : links merged = links before ++ links added := by
    rw [hmerged, links, List.map_append, List.map_map]
    exact congrArg (· ++ _) (List.map_congr_left fun old _ => hlink old)
  have hmergedUnique : (links merged).Nodup := by
    rw [hlinks, ← hold]
    exact hadded.unique
  have hsub := removeOldItems_sublist now merged
  have hback : ∀ old ∈ before, ∀ item ∈ removeOldItems now merged, item.link = old.link →
      item = refreshed old := by
    intro old hmem item hitem hsame
    refine eq_of_link hmergedUnique (hsub.subset hitem) ?_ (hsame.trans (hlink old).symm)
    rw [hmerged]
    exact List.mem_append_left _ (List.mem_map_of_mem hmem)
  have hmissing : ∀ old : RssItem, latest entries old.link = none →
      refreshed old = old.setIsExistAtLastFeeds false := by
    intro old hnone
    have hlatest : latest entries (old.setIsExistAtLastFeeds false).link = none := hnone
    exact refreshAll_of_none hlatest
  have hlatest : ∀ item ∈ merged, ∀ entry, latest entries item.link = some entry →
      item.toItemData = entry.toItemData ∧ item.isExistAtLastFeeds = true := by
    intro item hitem entry hentry
    rw [hmerged] at hitem
    rcases List.mem_append.mp hitem with hitem | hitem
    · obtain ⟨old, -, rfl⟩ := List.mem_map.mp hitem
      rw [hlink] at hentry
      have hold' : latest entries (old.setIsExistAtLastFeeds false).link = some entry := hentry
      exact refreshAll_of_some hold'
    · obtain ⟨last, hlast, hdata⟩ := hadded.data item hitem
      rw [hlast] at hentry
      cases hentry
      exact ⟨hdata, hadded.present item hitem⟩
  refine ⟨hmergedUnique.sublist (hsub.map _), ?_⟩
  exact {
    present := by
      intro entry hentry hvalid
      have hcovered := hadded.covers entry hentry hvalid
      rw [hold, ← hlinks] at hcovered
      obtain ⟨item, hitem, hsame⟩ := List.mem_map.mp hcovered
      obtain ⟨last, hlast⟩ := Option.isSome_iff_exists.mp (latest_isSome hentry hvalid)
      obtain ⟨index, hget⟩ := List.getElem?_of_mem hitem
      refine ⟨item, mem_removeOldItems.mpr ⟨index, hget, .inl ?_⟩, hsame⟩
      exact (hlatest item hitem last (by rw [hsame]; exact hlast)).2
    data := fun item hitem entry hentry => (hlatest item (hsub.subset hitem) entry hentry).1
    read := by
      intro old hmem hread item hitem hsame
      rw [hback old hmem item hitem hsame]
      exact (refreshAll_isRead _ _).trans hread
    kept := by
      intro index old hget hnone
      have hmem := List.mem_of_getElem? hget
      have hplace : merged[index]? = some (refreshed old) := by
        have hlt := (List.getElem?_eq_some_iff.mp hget).1
        rw [hmerged, List.getElem?_append_left (by rwa [List.length_map]), List.getElem?_map, hget]
        rfl
      constructor
      · rintro ⟨item, hitem, hsame⟩
        obtain ⟨place, hat, hkept⟩ := mem_removeOldItems.mp hitem
        rw [hback old hmem item hitem hsame] at hat hkept
        have hindex : place = index := by
          have hplace' := congrArg (Option.map fun item : RssItem => item.link) (hat.trans hplace.symm)
          rw [← List.getElem?_map, ← List.getElem?_map] at hplace'
          have hlt := (List.getElem?_eq_some_iff.mp hat).1
          exact (List.getElem?_inj (by simpa [links] using hlt) hmergedUnique).mp hplace'
        rw [hmissing old hnone, hindex] at hkept
        exact hkept.resolve_left (by simp [RssItem.setIsExistAtLastFeeds])
      · intro hyoung
        refine ⟨refreshed old, mem_removeOldItems.mpr ⟨index, hplace, .inr ?_⟩, hlink old⟩
        rw [hmissing old hnone]
        exact hyoung
    unchanged := by
      intro old hmem hnone item hitem hsame
      rw [hback old hmem item hitem hsame, hmissing old hnone]
      rfl
    origin := by
      intro item hitem
      have hin := hsub.subset hitem
      rw [hmerged] at hin
      rcases List.mem_append.mp hin with hin | hin
      · obtain ⟨old, hmem, rfl⟩ := List.mem_map.mp hin
        exact .inl (List.mem_map.mpr ⟨old, hmem, (hlink old).symm⟩)
      · obtain ⟨entry, hentry, -⟩ := hadded.data item hin
        exact .inr (by simp [hentry]) }


/-! ## Sorting and marks -/

theorem Merged.perm {entries : List Entry} {now : ℕ → ℤ} {before after after' : List RssItem}
    (h : Merged entries now before after) (hperm : after'.Perm after) :
    Merged entries now before after' where
  present entry hentry hvalid := by
    obtain ⟨item, hitem, hsame⟩ := h.present entry hentry hvalid
    exact ⟨item, hperm.mem_iff.mpr hitem, hsame⟩
  data item hitem := h.data item (hperm.mem_iff.mp hitem)
  read old hmem hread item hitem := h.read old hmem hread item (hperm.mem_iff.mp hitem)
  kept index old hget hnone := by
    simp only [hperm.mem_iff]
    exact h.kept index old hget hnone
  unchanged old hmem hnone item hitem := h.unchanged old hmem hnone item (hperm.mem_iff.mp hitem)
  origin item hitem := h.origin item (hperm.mem_iff.mp hitem)

/-- An item before and after some marks. -/
def Marked (a b : RssItem) : Prop := b.toEntry = a.toEntry ∧ (a.isRead = true → b.isRead = true)

theorem forall₂_markAsRead (list : List RssItem) :
    List.Forall₂ Marked list (list.map RssItem.markAsRead) := by
  rw [List.forall₂_map_right_iff]
  exact List.forall₂_same.mpr fun item _ => ⟨rfl, fun _ => rfl⟩

theorem forall₂_modify (index : ℕ) (list : List RssItem) :
    List.Forall₂ Marked list (list.modify index RssItem.markAsRead) := by
  have hsame : ∀ items : List RssItem, List.Forall₂ Marked items items :=
    fun items => List.forall₂_same.mpr fun item _ => ⟨rfl, id⟩
  induction list generalizing index with
  | nil => simp
  | cons item list ih =>
    cases index with
    | zero =>
      rw [List.modify_zero_cons]
      exact .cons ⟨rfl, fun _ => rfl⟩ (hsame list)
    | succ index =>
      rw [List.modify_succ_cons]
      exact .cons ⟨rfl, id⟩ (ih index)

theorem forall₂_marked_map {α : Type} {list list' : List RssItem}
    (h : List.Forall₂ Marked list list') (f : Entry → α) :
    list'.map (fun item => f item.toEntry) = list.map fun item => f item.toEntry := by
  induction h with
  | nil => rfl
  | cons hmark _ ih => rw [List.map_cons, List.map_cons, ih, hmark.1]

theorem forall₂_marked_mem {list list' : List RssItem} (h : List.Forall₂ Marked list list') :
    (∀ item' ∈ list', ∃ item ∈ list, Marked item item') ∧
      ∀ item ∈ list, ∃ item' ∈ list', Marked item item' := by
  induction h with
  | nil => simp
  | @cons item item' list list' hmark _ ih =>
    constructor
    · intro other hother
      rcases List.mem_cons.mp hother with rfl | hother
      · exact ⟨item, List.mem_cons_self, hmark⟩
      · obtain ⟨found, hfound, hmarked⟩ := ih.1 other hother
        exact ⟨found, List.mem_cons_of_mem _ hfound, hmarked⟩
    · intro other hother
      rcases List.mem_cons.mp hother with rfl | hother
      · exact ⟨item', List.mem_cons_self, hmark⟩
      · obtain ⟨found, hfound, hmarked⟩ := ih.2 other hother
        exact ⟨found, List.mem_cons_of_mem _ hfound, hmarked⟩

/-- Marks keep what the last feed did. -/
theorem Merged.marked {entries : List Entry} {now : ℕ → ℤ} {before after after' : List RssItem}
    (h : Merged entries now before after) (hmarks : List.Forall₂ Marked after after') :
    Merged entries now before after' := by
  obtain ⟨hback, hforth⟩ := forall₂_marked_mem hmarks
  have hlink : ∀ {a b : RssItem}, Marked a b → b.link = a.link :=
    fun hmark => congrArg (fun entry : Entry => entry.link) hmark.1
  have hdata : ∀ {a b : RssItem}, Marked a b → b.toItemData = a.toItemData :=
    fun hmark => congrArg (fun entry : Entry => entry.toItemData) hmark.1
  exact {
    present := by
      intro entry hentry hvalid
      obtain ⟨item, hitem, hsame⟩ := h.present entry hentry hvalid
      obtain ⟨item', hitem', hmark⟩ := hforth item hitem
      exact ⟨item', hitem', (hlink hmark).trans hsame⟩
    data := by
      intro item' hitem' entry hentry
      obtain ⟨item, hitem, hmark⟩ := hback item' hitem'
      rw [hlink hmark] at hentry
      exact (hdata hmark).trans (h.data item hitem entry hentry)
    read := by
      intro old hmem hread item' hitem' hsame
      obtain ⟨item, hitem, hmark⟩ := hback item' hitem'
      exact hmark.2 (h.read old hmem hread item hitem ((hlink hmark).symm.trans hsame))
    kept := by
      intro index old hget hnone
      rw [← h.kept index old hget hnone]
      constructor
      · rintro ⟨item', hitem', hsame⟩
        obtain ⟨item, hitem, hmark⟩ := hback item' hitem'
        exact ⟨item, hitem, (hlink hmark).symm.trans hsame⟩
      · rintro ⟨item, hitem, hsame⟩
        obtain ⟨item', hitem', hmark⟩ := hforth item hitem
        exact ⟨item', hitem', (hlink hmark).trans hsame⟩
    unchanged := by
      intro old hmem hnone item' hitem' hsame
      obtain ⟨item, hitem, hmark⟩ := hback item' hitem'
      exact (hdata hmark).trans
        (h.unchanged old hmem hnone item hitem ((hlink hmark).symm.trans hsame))
    origin := by
      intro item' hitem'
      obtain ⟨item, hitem, hmark⟩ := hback item' hitem'
      rw [hlink hmark]
      exact h.origin item hitem }

/-! ## Whole runs -/

variable {Source Hash : Type} [DecidableEq Hash] (hash : Source → Hash)
  (read : Source → List Entry × Bool) (sorting : Sorting)

/-- The document that the event delivers. -/
def Event.delivered : Event Source → Option Source
  | .feed source _ => some source
  | _ => none

def lastSource (events : List (Event Source)) : Option Source :=
  (events.filterMap Event.delivered).getLast?

/-- The documents are well formed, and each is different from the one before, which is seen by
its hash. -/
def ValidRun (events : List (Event Source)) : Prop :=
  ∀ before source now after, events = before ++ .feed source now :: after →
    (read source).2 = false ∧ ∀ last, lastSource before = some last → hash last ≠ hash source

/-- What holds after any events. -/
structure Sound (events : List (Event Source)) (channel : RssChannel Source Hash) : Prop where
  unique : (links channel.list).Nodup
  merged : ∀ before source now marks, events = before ++ .feed source now :: marks →
    (∀ mark ∈ marks, mark.delivered = none) →
    Merged (read source).1 now (run hash read sorting before).list channel.list
  sorted : (dates channel.list).Pairwise fun a b => b ≤ a

theorem run_append (events : List (Event Source)) (event : Event Source) :
    run hash read sorting (events ++ [event]) =
      step hash read sorting (run hash read sorting events) event := by
  rw [run, List.foldl_append]
  rfl

theorem lastSource_append (events : List (Event Source)) (event : Event Source) :
    lastSource (events ++ [event]) = event.delivered.or (lastSource events) := by
  rw [lastSource, List.filterMap_append]
  cases hevent : event.delivered with
  | none => simp [hevent, lastSource]
  | some source => simp [hevent]

variable {hash read} in
theorem ValidRun.of_append {events : List (Event Source)} {event : Event Source}
    (h : ValidRun hash read (events ++ [event])) : ValidRun hash read events := by
  intro before source now after hevents
  refine h before source now (after ++ [event]) ?_
  rw [hevents, List.append_assoc, List.cons_append]

/-- Between two events nothing waits to be parsed. -/
theorem run_source {events : List (Event Source)} (hvalid : ValidRun hash read events) :
    (run hash read sorting events).source = none ∧
      (run hash read sorting events).lastSourceHash = (lastSource events).map hash := by
  induction events using List.reverseRecOn with
  | nil => exact ⟨rfl, rfl⟩
  | append_singleton events event ih =>
    obtain ⟨hsource, hhash⟩ := ih hvalid.of_append
    rw [run_append, lastSource_append]
    cases event with
    | feed source now =>
      have hnew : some (hash source) ≠ (run hash read sorting events).lastSourceHash := by
        rw [hhash]
        intro heq
        obtain ⟨last, hlast, hsame⟩ := Option.map_eq_some_iff.mp heq.symm
        exact (hvalid events source now [] rfl).2 last hlast hsame
      simp only [step, fetchingSucceed, if_pos hnew, parse]
      exact ⟨trivial, rfl⟩
    | markAsRead => exact ⟨hsource, hhash⟩
    | markItemAsRead index => exact ⟨hsource, hhash⟩

/-- The list after a feed. -/
theorem step_feed {events : List (Event Source)} {source : Source} {now : ℕ → ℤ}
    (hvalid : ValidRun hash read (events ++ [.feed source now])) :
    (run hash read sorting (events ++ [.feed source now])).list =
      sorting.sort (removeOldItems now ((read source).1.foldl merge
        ((run hash read sorting events).list.map (RssItem.setIsExistAtLastFeeds false)))) := by
  obtain ⟨hsource, hhash⟩ := run_source hash read sorting hvalid.of_append
  obtain ⟨hwell, hdiffers⟩ := hvalid events source now [] rfl
  have hnew : some (hash source) ≠ (run hash read sorting events).lastSourceHash := by
    rw [hhash]
    intro heq
    obtain ⟨last, hlast, hsame⟩ := Option.map_eq_some_iff.mp heq.symm
    exact hdiffers last hlast hsame
  rw [run_append]
  simp only [step, fetchingSucceed, if_pos hnew, parse, hwell, Bool.false_eq_true, if_false]

/-- Marks keep what holds. -/
theorem Sound.mark {events : List (Event Source)} {channel channel' : RssChannel Source Hash}
    (h : Sound hash read sorting events channel) {event : Event Source}
    (hevent : event.delivered = none)
    (hmarks : List.Forall₂ Marked channel.list channel'.list) :
    Sound hash read sorting (events ++ [event]) channel' where
  unique := by
    rw [links, forall₂_marked_map hmarks fun entry => entry.link]
    exact h.unique
  merged before source now marks hevents hnone := by
    obtain ⟨marks, rfl⟩ : ∃ rest, marks = rest ++ [event] := by
      rcases List.eq_nil_or_concat marks with rfl | ⟨rest, last, rfl⟩
      · have hlast := List.append_inj_right' hevents rfl
        cases hlast
        cases hevent
      · rw [List.concat_eq_append, ← List.cons_append, ← List.append_assoc] at hevents
        have hlast := List.append_inj_right' hevents rfl
        cases hlast
        exact ⟨rest, List.concat_eq_append⟩
    rw [← List.cons_append, ← List.append_assoc] at hevents
    have hfront := List.append_inj_left' hevents rfl
    refine (h.merged before source now marks hfront fun mark hmark => ?_).marked hmarks
    exact hnone mark (List.mem_append_left _ hmark)
  sorted := by
    rw [dates, forall₂_marked_map hmarks fun entry => entry.publishDate.getD 0]
    exact h.sorted

/-- All but the number of unread items is right after any events. -/
theorem run_merged {events : List (Event Source)} (hvalid : ValidRun hash read events) :
    Sound hash read sorting events (run hash read sorting events) := by
  induction events using List.reverseRecOn with
  | nil =>
    exact {
      unique := List.nodup_nil
      merged := fun before source now marks hevents => by simp at hevents
      sorted := List.Pairwise.nil }
  | append_singleton events event ih =>
    have hsound := ih hvalid.of_append
    cases event with
    | feed source now =>
      have hlist := step_feed hash read sorting hvalid
      obtain ⟨hunique, hmerged⟩ :=
        merged_removeOldItems hsound.unique (read source).1 now
      have hperm := sorting.perm (removeOldItems now ((read source).1.foldl merge
        ((run hash read sorting events).list.map (RssItem.setIsExistAtLastFeeds false))))
      refine {
        unique := ?_
        merged := ?_
        sorted := ?_ }
      · rw [hlist]
        exact (hperm.map _).nodup_iff.mpr hunique
      · intro before source' now' marks hevents hnone
        rcases List.eq_nil_or_concat marks with rfl | ⟨rest, last, rfl⟩
        · have hlast := List.append_inj_right' hevents rfl
          have hfront := List.append_inj_left' hevents rfl
          cases hlast
          rw [← hfront, hlist]
          exact hmerged.perm hperm
        · rw [List.concat_eq_append, ← List.cons_append, ← List.append_assoc] at hevents
          have hlast := List.append_inj_right' hevents rfl
          cases hlast
          cases hnone (.feed source now) (by simp)
      · rw [hlist, dates, List.pairwise_map]
        refine (sorting.sorted _).imp fun {a b} hsorted => ?_
        simpa [compare] using hsorted
    | markAsRead =>
      rw [run_append]
      exact hsound.mark hash read sorting rfl (forall₂_markAsRead _)
    | markItemAsRead index =>
      rw [run_append]
      exact hsound.mark hash read sorting rfl (forall₂_modify index _)

/-! ## The number of unread items -/

theorem countUnread_eq (channel : RssChannel Source Hash) :
    channel.countUnread = channel.list.countP fun item => item.isRead := by
  have hfold : ∀ (list : List RssItem) (result : ℕ),
      list.foldl (fun result item => if item.isRead then result + 1 else result) result =
        result + list.countP fun item => item.isRead := by
    intro list
    induction list with
    | nil => simp
    | cons item list ih =>
      intro result
      rw [List.foldl_cons, ih, List.countP_cons]
      by_cases hread : item.isRead = true
      · simp [hread, Nat.add_assoc, Nat.add_comm 1]
      · simp [hread]
  rw [countUnread, hfold, Nat.zero_add]

/-- What the channel promises after some events. -/
structure Right (events : List (Event Source)) (channel : RssChannel Source Hash) : Prop
    extends Sound hash read sorting events channel where
  counted : channel.countUnread = channel.list.countP fun item => !item.isRead
  counted_list : channel.countUnread = channel.getAllUnreadItems.length

/-- The number of unread items is the number of the read ones, so it is right while there are as
many of them; everything else always is. -/
theorem feeds_right_iff {events : List (Event Source)} (hvalid : ValidRun hash read events) :
    Right hash read sorting events (run hash read sorting events) ↔
      (run hash read sorting events).list.countP (fun item => item.isRead) =
        (run hash read sorting events).list.countP fun item => !item.isRead := by
  have hlength : (run hash read sorting events).getAllUnreadItems.length =
      (run hash read sorting events).list.countP fun item => !item.isRead :=
    List.countP_eq_length_filter.symm
  constructor
  · intro h
    rw [← countUnread_eq, h.counted]
  · intro hbalanced
    rw [← countUnread_eq] at hbalanced
    exact {
      run_merged hash read sorting hvalid with
      counted := hbalanced
      counted_list := hbalanced.trans hlength.symm }


/-- No item is newer than one before it. -/
def Follows (a b : RssItem) : Prop := compare b a = false

instance : DecidableRel Follows := fun a b => inferInstanceAs (Decidable (compare b a = false))

theorem follows_iff {a b : RssItem} :
    Follows a b ↔ b.publishDate.getD 0 ≤ a.publishDate.getD 0 := by
  simp [Follows, compare]

instance : Std.Total Follows where
  total a b := by
    rw [follows_iff, follows_iff]
    exact le_total _ _

instance : IsTrans RssItem Follows where
  trans a b c hab hbc := by
    rw [follows_iff] at *
    exact hbc.trans hab

/-- The items by date, those of one date in their order. -/
def stableSorting : Sorting where
  sort := List.insertionSort Follows
  perm := List.perm_insertionSort Follows
  sorted := List.pairwise_insertionSort Follows

/-- A short item of a feed. -/
def shortEntry (name : Char) (date : ℤ) : Entry where
  title := [name]
  description := []
  link := [name]
  publishDate := some date
  imageLink := []
  guid := []
  author := []
  categoryList := []
  commentsLink := []
  imageFromSite := some [name]

/-- Feeds that are given by their dates. -/
def shortFeed (source : List (Char × ℤ)) : List Entry × Bool :=
  (source.map fun item => shortEntry item.1 item.2, false)

/-- Two items, of which one is marked as read. -/
def shortRun : List (Event (List (Char × ℤ))) :=
  [.feed [('a', 2), ('b', 1)] fun _ => 3, .markItemAsRead 0]

theorem feeds_right_iff_two :
    Right id shortFeed stableSorting shortRun (run id shortFeed stableSorting shortRun) := by
  refine (feeds_right_iff id shortFeed stableSorting ?_).mpr (by decide)
  intro before source now after hevents
  refine ⟨rfl, fun last hlast => ?_⟩
  cases before with
  | nil => cases hlast
  | cons first before =>
    cases before with
    | nil => cases hevents
    | cons second before => simp [shortRun] at hevents

/-- One unread item, and none is counted. -/
theorem countUnread_counts_read :
    (run id shortFeed stableSorting [.feed [('a', 2)] fun _ => 3]).countUnread = 0 ∧
      (run id shortFeed stableSorting [.feed [('a', 2)] fun _ => 3]).getAllUnreadItems.length =
        1 := by
  decide

end RssChannel
end Bettergram.News
