import Bettergram.Storage.SparseIdsQuery

/-! # What keeps the count

The count has to allow for the messages of each slice at an end. A removed message takes one
off it whether or not the slices have it, and a given count replaces it whatever the other
slices have.
-/

namespace Bettergram.Storage
open Foundation

theorem getElem?_lowerBound {α : Type*} (p : α → Bool) (l : List α) :
    l[lowerBound p l]? = l.find? fun a => !p a := by
  induction l with
  | nil => rfl
  | cons a l ih =>
    rw [lowerBound, List.takeWhile_cons, List.find?_cons]
    cases p a
    · rfl
    · exact ih

namespace SparseIdsList

variable {before after united : List Slice} {ids : Finset MsgId} {l : SparseIdsList}
  {query : SparseIdsListQuery} {s : Slice} {messages : List MsgId} {noSkipRange : MsgRange}

/-- The first slice that ends at or behind an id of a slice is that slice. -/
theorem find?_eq_of_mem (h : Ordered l.slices) (hs : s ∈ l.slices) {id : MsgId}
    (hid : id ∈ s.range) : l.slices.find? (fun s => !decide (s.range.till < id)) = some s := by
  cases hfind : l.slices.find? (fun s => !decide (s.range.till < id)) with
  | none =>
    have hnone := List.find?_eq_none.mp hfind s hs
    simp only [Bool.not_eq_eq_eq_not, Bool.not_true, decide_eq_false_iff_not, not_not] at hnone
    exact absurd hid.2 (not_le.mpr hnone)
  | some t =>
    obtain ⟨ht, first, last, hslices, hfirst⟩ := List.find?_eq_some_iff_append.mp hfind
    simp only [Bool.not_eq_eq_eq_not, Bool.not_true, decide_eq_false_iff_not, not_lt] at ht
    rw [hslices, List.mem_append, List.mem_cons] at hs
    obtain hs | rfl | hs := hs
    · have hlost := hfirst s hs
      simp only [Bool.not_not, decide_eq_true_eq] at hlost
      exact absurd hid.2 (not_le.mpr hlost)
    · rfl
    · have hapart := h.apart
      rw [hslices, List.pairwise_append, List.pairwise_cons] at hapart
      have hlt := hapart.2.1.1 s hs
      exact absurd (hid.1.trans ht) (not_le.mpr hlt)

theorem query_of_covered (h : Ordered l.slices) (hs : s ∈ l.slices)
    (hid : query.aroundId ∈ s.range) (hne : query.aroundId ≠ 0) :
    l.query query = some (l.queryFromSlice query s) := by
  have hat := getElem?_lowerBound (fun s : Slice => decide (s.range.till < query.aroundId)) l.slices
  rw [find?_eq_of_mem h hs hid] at hat
  have hfilter : (some s).filter (fun s => decide (s.range.fromId ≤ query.aroundId)) = some s :=
    Option.filter_some_pos (decide_eq_true hid.1)
  simp only [SparseIdsList.query, if_neg hne, hat, hfilter]

/-- A query outside of the slices is told the count alone. -/
theorem query_of_uncovered
    (h : ∀ s ∈ l.slices, query.aroundId = 0 ∨ query.aroundId ∉ s.range) :
    l.query query = l.count.map fun count => { count := some count } := by
  have hnone : (if query.aroundId = 0 then none
      else l.slices[lowerBound (fun s : Slice => s.range.till < query.aroundId) l.slices]?).filter
        (fun s => decide (s.range.fromId ≤ query.aroundId)) = none := by
    split_ifs with hzero
    · rfl
    · rw [getElem?_lowerBound]
      cases hfind : l.slices.find? (fun s => !decide (s.range.till < query.aroundId)) with
      | none => rfl
      | some t =>
        have htill := List.find?_some hfind
        simp only [Bool.not_eq_eq_eq_not, Bool.not_true, decide_eq_false_iff_not, not_lt] at htill
        have hout := (h t (List.mem_of_find?_eq_some hfind)).resolve_left hzero
        exact Option.filter_some_neg (decide_eq_false fun hfrom => hout ⟨hfrom, htill⟩)
  simp only [SparseIdsList.query, hnone]

/-- The ids are the nearest ones of the slice that covers the id, and no known id between
them is left out. -/
structure Answered (ids : Finset MsgId) (l : SparseIdsList) (query : SparseIdsListQuery)
    (messageIds : Finset MsgId) : Prop where
  covered : ∀ s ∈ l.slices, query.aroundId ≠ 0 → query.aroundId ∈ s.range →
    Nearest s.messages query messageIds
  uncovered : (∀ s ∈ l.slices, query.aroundId = 0 ∨ query.aroundId ∉ s.range) → messageIds = ∅
  between : ∀ a ∈ messageIds, ∀ b ∈ messageIds, ∀ id ∈ ids, a ≤ id → id ≤ b → id ∈ messageIds

theorem query_answered (h : Knows ids l.slices) {result : SparseIdsListResult}
    (hquery : l.query query = some result) : Answered ids l query result.messageIds := by
  by_cases hall : ∀ s ∈ l.slices, query.aroundId = 0 ∨ query.aroundId ∉ s.range
  · rw [query_of_uncovered hall] at hquery
    obtain ⟨count, -, rfl⟩ := Option.map_eq_some_iff.mp hquery
    refine ⟨fun s hs hne hid => ?_, fun _ => rfl, fun a ha => absurd ha (Finset.notMem_empty a)⟩
    exact absurd hid ((hall s hs).resolve_left hne)
  · push Not at hall
    obtain ⟨s, hs, hne, hid⟩ := hall
    obtain rfl := Option.some.inj ((query_of_covered h.toOrdered hs hid hne).symm.trans hquery)
    have hnearest : Nearest s.messages query (l.queryFromSlice query s).messageIds :=
      queryFromSlice_nearest
    refine ⟨fun t ht _ hidt => ?_, fun hout => ?_, fun a ha b hb id hknown hge hle => ?_⟩
    · obtain rfl : t = s := Option.some.inj
        ((find?_eq_of_mem h.toOrdered ht hidt).symm.trans (find?_eq_of_mem h.toOrdered hs hid))
      exact hnearest
    · exact absurd hid ((hout s hs).resolve_left hne)
    · have hina := ((h.exact s hs a).mp (hnearest.subset ha)).1
      have hinb := ((h.exact s hs b).mp (hnearest.subset hb)).1
      have hmem := (h.exact s hs id).mpr ⟨⟨hina.1.trans hge, hle.trans hinb.2⟩, hknown⟩
      exact hnearest.between ha hb hmem hge hle

/-- The slices are made of ids that a server gives. -/
def Inside (slices : List Slice) : Prop :=
  ∀ s ∈ slices, 0 ≤ s.range.fromId ∧ s.range.till ≤ ServerMaxMsgId

/-- The count allows for each slice a query can be answered from. -/
def CountAllows (l : SparseIdsList) : Prop :=
  ∀ s ∈ l.slices, s.range ≠ ⟨0, 0⟩ → Counted l.count s

/-- All queries are answered right exactly when the count allows for the slices. -/
theorem queries_consistent_iff (h : Ordered l.slices) (hinside : Inside l.slices) :
    (∀ query result, l.query query = some result → Consistent result) ↔ CountAllows l := by
  constructor
  · intro hall s hs hne
    have hvalid := h.valid s hs
    have hnonneg := (hinside s hs).1
    have htill : s.range.till ≠ 0 := by
      intro hzero
      have heta : s.range = ⟨s.range.fromId, s.range.till⟩ := rfl
      have hfrom : s.range.fromId = 0 := by grind
      exact hne (by rw [heta, hfrom, hzero])
    set query : SparseIdsListQuery := ⟨s.range.till, s.messages.card, s.messages.card⟩ with hquery
    have hid : query.aroundId ∈ s.range := ⟨hvalid, le_refl _⟩
    exact counted_of_consistent (hall query _ (query_of_covered h hs hid htill))
  · intro hcount query result hquery
    by_cases hall : ∀ s ∈ l.slices, query.aroundId = 0 ∨ query.aroundId ∉ s.range
    · rw [query_of_uncovered hall] at hquery
      obtain ⟨count, -, rfl⟩ := Option.map_eq_some_iff.mp hquery
      constructor <;> simp
    · push Not at hall
      obtain ⟨s, hs, hne, hid⟩ := hall
      obtain rfl := Option.some.inj ((query_of_covered h hs hid hne).symm.trans hquery)
      refine queryFromSlice_consistent (hcount s hs fun hrange => hne ?_)
      rw [hrange] at hid
      exact le_antisymm hid.2 hid.1


/-- How many messages the slice of a range has once they are added. -/
def sizeWith (messages : List MsgId) (range : MsgRange) (l : SparseIdsList) : ℕ :=
  ((unitedWith range l).foldr (fun s known => s.messages ∪ known) messages.toFinset).card

def IsEnd (s : Slice) : Prop :=
  s.range ≠ ⟨0, 0⟩ ∧ (s.range.fromId = 0 ∨ s.range.till = ServerMaxMsgId)

instance (s : Slice) : Decidable (IsEnd s) := inferInstanceAs (Decidable (_ ∧ (_ ∨ _)))

/-- What has to hold of the list for the count to allow for its slices after a call: a removed
message is in each slice at an end, or the count is more than its messages, and a given count,
or the size of the slice it comes with, is no less than the messages of the others. -/
def Op.Fits (op : Op) (l : SparseIdsList) : Prop :=
  match op with
  | addSlice messageIds noSkipRange (some count) => ∀ s ∈ l.slices, IsEnd s →
    s ∉ unitedWith noSkipRange l → s.messages.card ≤ max count (sizeWith messageIds noSkipRange l)
  | removeOne messageId => ∀ s ∈ l.slices, IsEnd s → ∀ count, l.count = some count →
    messageId ∈ s.messages ∨ s.messages.card < count
  | _ => True

/-- Every call of a run. -/
def Fits : List Op → SparseIdsList → Prop
  | [], _ => True
  | op :: ops, l => op.Fits l ∧ ∀ l', l.perform op = some l' → Fits ops l'

/-- The ranges are made of ids that a server gives. -/
def Op.Inside : Op → Prop
  | addNew messageId => 0 ≤ messageId
  | addExisting _ noSkipRange => 0 ≤ noSkipRange.fromId ∧ noSkipRange.till ≤ ServerMaxMsgId
  | addSlice _ noSkipRange _ => 0 ≤ noSkipRange.fromId ∧ noSkipRange.till ≤ ServerMaxMsgId
  | _ => True

theorem mem_foldr_messages {known : Finset MsgId} {id : MsgId} :
    id ∈ united.foldr (fun s known => s.messages ∪ known) known ↔
      id ∈ known ∨ ∃ u ∈ united, id ∈ u.messages := by
  induction united with
  | nil => simp
  | cons u united ih =>
    rw [List.foldr_cons, Finset.mem_union, ih, List.exists_mem_cons_iff]
    exact or_left_comm

theorem sizeWith_eq (hunited : unitedWith noSkipRange l = united)
    (hmerged : Slice.Merged ⟨messages.toFinset, noSkipRange⟩ united s) :
    sizeWith messages noSkipRange l = s.messages.card := by
  rw [sizeWith, hunited]
  congr 1
  ext id
  rw [mem_foldr_messages, hmerged.messages]

/-- A slice of everything has no others beside it. -/
theorem eq_singleton_of_whole {slices : List Slice} (h : Ordered slices) (hinside : Inside slices)
    (hs : s ∈ slices) (hrange : s.range = ⟨0, ServerMaxMsgId⟩) : slices = [s] := by
  obtain ⟨first, last, rfl⟩ := List.append_of_mem hs
  have hapart := h.apart
  rw [List.pairwise_append, List.pairwise_cons, hrange] at hapart
  obtain ⟨-, ⟨hlast, -⟩, hacross⟩ := hapart
  have hnone : ∀ c ∈ first ++ s :: last, c ∉ first ∧ c ∉ last := fun c hc => by
    have hvalid := h.valid c hc
    obtain ⟨hlow, hhigh⟩ := hinside c hc
    constructor
    · intro hmem
      have hlt := hacross c hmem s List.mem_cons_self
      rw [hrange] at hlt
      exact absurd hvalid (not_le.mpr (hlt.trans_le hlow))
    · intro hmem
      exact absurd hvalid (not_le.mpr (hhigh.trans_lt (hlast c hmem)))
  obtain rfl : first = [] := List.eq_nil_iff_forall_not_mem.mpr fun c hc =>
    (hnone c (by simp [hc])).1 hc
  obtain rfl : last = [] := List.eq_nil_iff_forall_not_mem.mpr fun c hc =>
    (hnone c (by simp [hc])).2 hc
  rfl

/-- Where no slice is all there is only its size counts. -/
theorem counted_iff_of_not_whole {count : Option ℤ} (hrange : s.range ≠ ⟨0, ServerMaxMsgId⟩) :
    (s.range ≠ ⟨0, 0⟩ → Counted count s) ↔
      (IsEnd s → ∀ n, count = some n → (s.messages.card : ℤ) ≤ n) :=
  ⟨fun h hend n hn => ((h hend.1) n hn).1 hend.2,
    fun h hne n hn => ⟨fun hend => h ⟨hne, hend⟩ n hn, fun heq => absurd heq hrange⟩⟩

theorem inside_of_merged (hmerged : Slice.Merged ⟨messages.toFinset, noSkipRange⟩ united s)
    (hunited : Inside united)
    (hrange : 0 ≤ noSkipRange.fromId ∧ noSkipRange.till ≤ ServerMaxMsgId) :
    0 ≤ s.range.fromId ∧ s.range.till ≤ ServerMaxMsgId := by
  have hlow := (hmerged.fromId (-1)).mpr ⟨by grind, fun u hu => by
    have := (hunited u hu).1
    grind⟩
  have hhigh := (hmerged.till (ServerMaxMsgId + 1)).mpr ⟨by grind, fun u hu => by
    have := (hunited u hu).2
    grind⟩
  exact ⟨by grind, by grind⟩


theorem addRange_allows (h : Ordered l.slices) (hinside : Inside l.slices)
    (hrange : noSkipRange.fromId ≤ noSkipRange.till)
    (hbounds : 0 ≤ noSkipRange.fromId ∧ noSkipRange.till ≤ ServerMaxMsgId) {count : Option ℤ}
    {incrementCount : Bool} (hboth : ¬(count.isSome = true ∧ incrementCount = true))
    {update : SparseIdsSliceUpdate} {l' : SparseIdsList}
    (hadd : l.addRange messages noSkipRange count incrementCount = some (update, l'))
    (h' : Ordered l'.slices) :
    Inside l'.slices ∧ (CountAllows l → (CountAllows l' ↔ ∀ n, count = some n →
      ∀ s ∈ l.slices, IsEnd s → s ∉ unitedWith noSkipRange l →
        s.messages.card ≤ max n (sizeWith messages noSkipRange l))) := by
  obtain ⟨before, united, after, s, result, hslices, hbefore, hafter, hmeets, hnew, hmerged,
    hinslice, -⟩ := addRangeItemsAndCountNew_spec messages h hrange
  obtain ⟨update', heq⟩ := addRange_eq hboth hnew
  obtain ⟨-, rfl⟩ := Prod.mk.inj (Option.some.inj (heq.symm.trans hadd))
  have hunited := unitedWith_eq hbefore hafter hmeets hslices
  have hsize := sizeWith_eq hunited hmerged
  have hothers : ∀ t, t ∈ before ∨ t ∈ after ↔ t ∈ l.slices ∧ t ∉ united := by
    intro t
    rw [hslices, List.mem_append, List.mem_append]
    constructor
    · rintro (ht | ht)
      · exact ⟨.inl (.inl ht), fun hmem => absurd (hmeets t hmem).1 (not_le.mpr (hbefore t ht))⟩
      · exact ⟨.inr ht, fun hmem => absurd (hmeets t hmem).2 (not_le.mpr (hafter t ht))⟩
    · rintro ⟨(ht | ht) | ht, hnot⟩
      · exact .inl ht
      · exact absurd ht hnot
      · exact .inr ht
  have hinsideNew : Inside (before ++ s :: after) := by
    intro t ht
    rw [List.mem_append, List.mem_cons] at ht
    rcases ht with ht | rfl | ht
    · exact hinside t ((hothers t).mp (.inl ht)).1
    · exact inside_of_merged hmerged (fun u hu => hinside u (by rw [hslices]; simp [hu])) hbounds
    · exact hinside t ((hothers t).mp (.inr ht)).1
  refine ⟨hinsideNew, fun hallows => ?_⟩
  rw [hunited, hsize]
  by_cases hwhole : ∃ t ∈ before ++ s :: after, t.range = ⟨0, ServerMaxMsgId⟩
  · obtain ⟨t, ht, htrange⟩ := hwhole
    have hlist : before ++ s :: after = [t] := eq_singleton_of_whole h' hinsideNew ht htrange
    obtain rfl : s = t := by
      have hmem : s ∈ before ++ s :: after := by simp
      rw [hlist] at hmem
      exact List.mem_singleton.mp hmem
    have hnone : ∀ t, ¬(t ∈ before ∨ t ∈ after) := by
      have hlength := congrArg List.length hlist
      simp only [List.length_append, List.length_cons, List.length_nil] at hlength
      obtain rfl : before = [] := List.eq_nil_of_length_eq_zero (by omega)
      obtain rfl : after = [] := List.eq_nil_of_length_eq_zero (by omega)
      simp
    rw [hlist]
    refine iff_of_true (fun t ht _ n hn => ?_) fun n hn t ht _ hnot =>
      absurd ((hothers t).mpr ⟨ht, hnot⟩) (hnone t)
    obtain rfl := List.mem_singleton.mp ht
    rw [countAfter_of_whole htrange hinslice] at hn
    have hcard := Option.some.inj hn
    exact ⟨fun _ => hcard.le, fun _ => hcard⟩
  · have hnot : ∀ t ∈ before ++ s :: after, t.range ≠ ⟨0, ServerMaxMsgId⟩ :=
      fun t ht htrange => hwhole ⟨t, ht, htrange⟩
    have hcounted : CountAllows ⟨countAfter l.count count incrementCount result
        (before ++ s :: after), before ++ s :: after⟩ ↔ ∀ t ∈ before ++ s :: after, IsEnd t →
          ∀ n, countAfter l.count count incrementCount result (before ++ s :: after) = some n →
            (t.messages.card : ℤ) ≤ n :=
      forall₂_congr fun t ht => counted_iff_of_not_whole (hnot t ht)
    rw [hcounted, countAfter_of_not_whole fun only hlist => hnot only (by simp [hlist]), hinslice]
    cases count with
    | none =>
      refine iff_of_true (fun t ht hend n hn => ?_) (by simp)
      rw [if_neg (by simp)] at hn
      obtain ⟨m, hm, rfl⟩ := Option.map_eq_some_iff.mp hn
      rw [List.mem_append, List.mem_cons, or_left_comm] at ht
      obtain rfl | ht := ht
      · exact le_max_right _ _
      · obtain ⟨htmem, -⟩ := (hothers t).mp ht
        refine le_trans ?_ (le_max_left _ _)
        split_ifs at hm with hadded
        · obtain ⟨k, hk, rfl⟩ := Option.map_eq_some_iff.mp hm
          have := ((hallows t htmem hend.1) k hk).1 hend.2
          omega
        · exact ((hallows t htmem hend.1) m hm).1 hend.2
    | some m =>
      rw [if_pos (Option.isSome_some)]
      simp only [Option.map_some, Option.some.injEq, forall_eq']
      constructor
      · intro hall t ht hend hout
        have hmem := (hothers t).mpr ⟨ht, hout⟩
        exact hall t (by rw [List.mem_append, List.mem_cons]; tauto) hend
      · intro hall t ht hend
        rw [List.mem_append, List.mem_cons, or_left_comm] at ht
        obtain rfl | ht := ht
        · exact le_max_right _ _
        · obtain ⟨htmem, hout⟩ := (hothers t).mp ht
          exact hall t htmem hend hout


theorem counted_eraseFrom_iff {count : Option ℤ} {messageId : MsgId}
    (h : s.range ≠ ⟨0, 0⟩ → Counted count s) :
    ((eraseFrom messageId s).range ≠ ⟨0, 0⟩ →
        Counted (count.map (· - 1)) (eraseFrom messageId s)) ↔
      (IsEnd s → ∀ n, count = some n → messageId ∈ s.messages ∨ (s.messages.card : ℤ) < n) := by
  have hcard : messageId ∈ s.messages → s.messages.card = (s.messages.erase messageId).card + 1 :=
    fun hmem => (Finset.card_erase_add_one hmem).symm
  have hsame : messageId ∉ s.messages → s.messages.erase messageId = s.messages :=
    Finset.erase_eq_of_notMem
  constructor
  · intro hcounted hend n hn
    by_contra hnot
    rw [not_or] at hnot
    have hle := ((hcounted hend.1) (n - 1) (by rw [hn]; rfl)).1 hend.2
    change ((s.messages.erase messageId).card : ℤ) ≤ n - 1 at hle
    rw [hsame hnot.1] at hle
    omega
  · intro hfits hne m hm
    obtain ⟨n, hn, rfl⟩ := Option.map_eq_some_iff.mp hm
    obtain ⟨hle, hwhole⟩ := h hne n hn
    change (_ → ((s.messages.erase messageId).card : ℤ) ≤ n - 1) ∧
      (_ → ((s.messages.erase messageId).card : ℤ) = n - 1)
    by_cases hmem : messageId ∈ s.messages
    · have := hcard hmem
      exact ⟨fun hend => by have := hle hend; omega, fun hrange => by have := hwhole hrange; omega⟩
    · rw [hsame hmem]
      refine ⟨fun hend => ?_, fun hrange => ?_⟩
      · have := (hfits ⟨hne, hend⟩ n hn).resolve_left hmem
        omega
      · have hend : s.range.fromId = 0 := congrArg MsgRange.fromId hrange
        have := (hfits ⟨hne, .inl hend⟩ n hn).resolve_left hmem
        have := hwhole hrange
        omega

theorem removeOne_allows (h : Knows ids l.slices) (hinside : Inside l.slices) {messageId : MsgId}
    {l' : SparseIdsList} (hremove : l.removeOne messageId = some l') :
    Inside l'.slices ∧ (CountAllows l → (CountAllows l' ↔ ∀ s ∈ l.slices, IsEnd s →
      ∀ n, l.count = some n → messageId ∈ s.messages ∨ s.messages.card < n)) := by
  obtain rfl := Option.some.inj ((removeOne_eq h messageId).symm.trans hremove)
  constructor
  · intro t ht
    obtain ⟨s, hs, rfl⟩ := List.mem_map.mp ht
    exact hinside s hs
  · intro hallows
    refine Iff.trans ?_ (forall₂_congr fun s hs => counted_eraseFrom_iff (hallows s hs))
    exact ⟨fun hall s hs => hall _ (List.mem_map_of_mem hs), fun hall t ht => by
      obtain ⟨s, hs, rfl⟩ := List.mem_map.mp ht
      exact hall s hs⟩

theorem invalidateBottom_allows (h : Knows ids l.slices) (hinside : Inside l.slices)
    {l' : SparseIdsList} (hinvalidate : l.invalidateBottom = some l') :
    Inside l'.slices ∧ CountAllows l' := by
  obtain ⟨slices, heq, hcases⟩ := invalidateBottom_eq h.toOrdered
  obtain rfl := Option.some.inj (heq.symm.trans hinvalidate)
  refine ⟨?_, fun s _ _ n hn => absurd hn (by simp)⟩
  obtain rfl | ⟨before, last, hslices, rfl⟩ := hcases
  · exact hinside
  · have hlast : last ∈ l.slices := by simp [hslices]
    have hcut := cutTill_till (h.valid last hlast) fun id hid => ((h.exact last hlast id).mp hid).1
    intro t ht
    rw [List.mem_append, List.mem_singleton] at ht
    rcases ht with ht | rfl
    · exact hinside t (by simp [hslices, ht])
    · exact ⟨(hinside last hlast).1, hcut.2.trans (hinside last hlast).2⟩

/-- What one call keeps, and when. -/
theorem perform_allows (h : Knows ids l.slices) (hinside : Inside l.slices) {op : Op}
    (hop : op.Valid) (hopInside : op.Inside) {l' : SparseIdsList}
    (hperform : l.perform op = some l') (h' : Ordered l'.slices) :
    Inside l'.slices ∧ (CountAllows l → (CountAllows l' ↔ op.Fits l)) := by
  cases op with
  | addNew messageId =>
    obtain ⟨⟨update, l'⟩, hadd, rfl⟩ := Option.map_eq_some_iff.mp hperform
    have hrange : (⟨messageId, ServerMaxMsgId⟩ : MsgRange).fromId ≤ ServerMaxMsgId := hop
    have hbounds : 0 ≤ (⟨messageId, ServerMaxMsgId⟩ : MsgRange).fromId := hopInside
    obtain ⟨hinside', hiff⟩ := addRange_allows h.toOrdered hinside hrange ⟨hbounds, le_refl _⟩
      (by simp) hadd h'
    exact ⟨hinside', fun hallows => (hiff hallows).trans (iff_of_true (by simp) trivial)⟩
  | addExisting messageId noSkipRange =>
    obtain ⟨⟨update, l'⟩, hadd, rfl⟩ := Option.map_eq_some_iff.mp hperform
    obtain ⟨hinside', hiff⟩ := addRange_allows h.toOrdered hinside (hop.1.trans hop.2) hopInside
      (by simp) hadd h'
    exact ⟨hinside', fun hallows => (hiff hallows).trans (iff_of_true (by simp) trivial)⟩
  | addSlice messageIds noSkipRange count =>
    obtain ⟨⟨update, l'⟩, hadd, rfl⟩ := Option.map_eq_some_iff.mp hperform
    obtain ⟨hinside', hiff⟩ := addRange_allows h.toOrdered hinside hop.1 hopInside (by simp) hadd h'
    refine ⟨hinside', fun hallows => (hiff hallows).trans ?_⟩
    cases count with
    | none => exact iff_of_true (by simp) trivial
    | some count =>
      simp only [Option.some.injEq, forall_eq']
      rfl
  | removeOne messageId => exact removeOne_allows h hinside hperform
  | removeAll =>
    obtain rfl := Option.some.inj hperform
    constructor
    · intro s hs
      obtain rfl := List.mem_singleton.mp hs
      exact ⟨le_refl _, le_refl _⟩
    · refine fun _ => iff_of_true (fun s hs _ n hn => ?_) trivial
      obtain rfl := List.mem_singleton.mp hs
      obtain rfl := Option.some.inj hn
      exact ⟨fun _ => le_refl _, fun _ => rfl⟩
  | invalidateBottom =>
    obtain ⟨hinside', hallows⟩ := invalidateBottom_allows h hinside hperform
    exact ⟨hinside', fun _ => iff_of_true hallows trivial⟩


theorem run_inside (h : Knows ids l.slices) (hinside : Inside l.slices) {ops : List Op}
    (hops : ∀ op ∈ ops, op.Valid ∧ op.Inside) {l' : SparseIdsList} (hrun : l.run ops = some l') :
    Inside l'.slices := by
  induction ops generalizing l ids with
  | nil =>
    obtain rfl := Option.some.inj hrun
    exact hinside
  | cons op ops ih =>
    obtain ⟨l₁, hperform, h₁⟩ := perform_knows h (hops op (by simp)).1
    rw [run, hperform] at hrun
    have hop := hops op (by simp)
    have hinside₁ := (perform_allows h hinside hop.1 hop.2 hperform h₁.toOrdered).1
    exact ih h₁ hinside₁ (fun o ho => hops o (by simp [ho])) hrun

/-- The count allows for the slices all along exactly when each call fits. -/
theorem run_allows_iff (h : Knows ids l.slices) (hinside : Inside l.slices) {ops : List Op}
    (hops : ∀ op ∈ ops, op.Valid ∧ op.Inside) (hallows : CountAllows l) :
    (∀ done, done <+: ops → ∀ l', l.run done = some l' → CountAllows l') ↔ Fits ops l := by
  induction ops generalizing l ids with
  | nil =>
    refine iff_of_true (fun done hdone l' hrun => ?_) trivial
    obtain rfl := List.prefix_nil.mp hdone
    obtain rfl := Option.some.inj hrun
    exact hallows
  | cons op ops ih =>
    obtain ⟨l₁, hperform, h₁⟩ := perform_knows h (hops op (by simp)).1
    have hop := hops op (by simp)
    obtain ⟨hinside₁, hiff⟩ := perform_allows h hinside hop.1 hop.2 hperform h₁.toOrdered
    have hrun : ∀ done, l.run (op :: done) = l₁.run done := fun done => by
      rw [run, hperform]
      rfl
    have hrest : ∀ hallows₁ : CountAllows l₁, _ := fun hallows₁ =>
      ih h₁ hinside₁ (fun o ho => hops o (by simp [ho])) hallows₁
    rw [Fits, hperform]
    simp only [Option.some.injEq, forall_eq']
    constructor
    · intro hall
      have hallows₁ : CountAllows l₁ := hall [op] ⟨ops, rfl⟩ l₁ (hrun [])
      refine ⟨(hiff hallows).mp hallows₁, (hrest hallows₁).mp fun done hdone l' hdoneRun => ?_⟩
      exact hall (op :: done) ((List.prefix_cons_inj op).mpr hdone) l' ((hrun done).trans hdoneRun)
    · rintro ⟨hfits, hfitsRest⟩ done hdone l' hdoneRun
      cases done with
      | nil =>
        obtain rfl := Option.some.inj hdoneRun
        exact hallows
      | cons first done =>
        obtain ⟨rfl, hdoneRest⟩ := List.cons_prefix_cons.mp hdone
        rw [hrun] at hdoneRun
        exact (hrest ((hiff hallows).mpr hfits)).mpr hfitsRest done hdoneRest l' hdoneRun

/-- In every state of a run a query tells the ids around it. The numbers it tells are right in
every state exactly when each call fits. -/
theorem run_queries_iff {ops : List Op} (hops : ∀ op ∈ ops, op.Valid ∧ op.Inside) :
    (∀ done, done <+: ops → ∃ l, ({} : SparseIdsList).run done = some l ∧
      ∀ query result, l.query query = some result →
        Answered (known done) l query result.messageIds) ∧
    ((∀ done, done <+: ops → ∀ l, ({} : SparseIdsList).run done = some l →
      ∀ query result, l.query query = some result → Consistent result) ↔
        Fits ops {}) := by
  have hempty : Knows ∅ ({} : SparseIdsList).slices :=
    ⟨⟨List.Pairwise.nil, by simp⟩, by simp, by simp⟩
  have hinside : Inside ({} : SparseIdsList).slices := fun s hs => absurd hs List.not_mem_nil
  have hvalid : ∀ done, done <+: ops → ∀ op ∈ done, op.Valid ∧ op.Inside :=
    fun done hdone op hop => hops op (hdone.subset hop)
  constructor
  · intro done hdone
    obtain ⟨l, hrun, hknows⟩ := run_knows hempty fun op hop => (hvalid done hdone op hop).1
    exact ⟨l, hrun, fun query result hquery => query_answered hknows hquery⟩
  · rw [← run_allows_iff hempty hinside hops fun s hs => absurd hs List.not_mem_nil]
    refine forall₂_congr fun done hdone => forall₂_congr fun l hrun => ?_
    obtain ⟨l₀, hrun₀, hknows⟩ := run_knows hempty fun op hop => (hvalid done hdone op hop).1
    obtain rfl := Option.some.inj (hrun₀.symm.trans hrun)
    exact queries_consistent_iff hknows.toOrdered
      (run_inside hempty hinside (hvalid done hdone) hrun)

/-- A known message is removed, and the count comes with the slice at the beginning. -/
theorem run_queries_iff_known :
    let ops : List Op := [.addSlice [5, 6] ⟨0, 10⟩ (some 4), .removeOne 5]
    (∀ done, done <+: ops → ∃ l, ({} : SparseIdsList).run done = some l ∧
      ∀ query result, l.query query = some result →
        Answered (known done) l query result.messageIds) ∧
    ((∀ done, done <+: ops → ∀ l, ({} : SparseIdsList).run done = some l →
      ∀ query result, l.query query = some result → Consistent result) ↔
        Fits ops {}) :=
  run_queries_iff (by
    simp only [List.mem_cons, List.not_mem_nil, or_false, forall_eq_or_imp, forall_eq, Op.Valid,
      Op.Inside, MsgRange.mem_iff, ServerMaxMsgId]
    decide)

/-- An unknown message is removed: at the last known id less than nothing is skipped. -/
theorem removeOne_unknown_skips_negative :
    let ops : List Op := [.addSlice [5, 6] ⟨0, 10⟩ (some 2), .removeOne 100]
    ∃ l result, ({} : SparseIdsList).run ops = some l ∧
      l.query ⟨5, 10, 10⟩ = some result ∧ result.skippedAfter = some (-1) :=
  ⟨_, _, rfl, rfl, by decide⟩

end SparseIdsList

end Bettergram.Storage
