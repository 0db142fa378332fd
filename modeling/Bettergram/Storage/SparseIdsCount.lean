import Bettergram.Storage.SparseIdsKnown

/-! # The count after a new message

A new message unites all slices that end behind it. What is added to the count is what
the first of them has more than before, so the messages of the others are counted again.
-/

namespace Bettergram.Storage
open Foundation

namespace SparseIdsList

variable {before united after : List Slice} {ids : Finset MsgId} {l : SparseIdsList}
  {messageId : MsgId}

/-- The slices that a range unites. -/
def unitedWith (range : MsgRange) (l : SparseIdsList) : List Slice :=
  l.slices.filter fun s => range.fromId ≤ s.range.till ∧ s.range.fromId ≤ range.till

/-- With a new message the list is one slice of everything. -/
def BecomesWhole (messageId : MsgId) (l : SparseIdsList) : Prop :=
  (∀ s ∈ l.slices, messageId ≤ s.range.till ∧ s.range.till ≤ ServerMaxMsgId ∧ 0 ≤ s.range.fromId) ∧
    0 ≤ messageId ∧ (messageId = 0 ∨ ∃ s ∈ l.slices, s.range.fromId = 0)

instance (messageId : MsgId) (l : SparseIdsList) : Decidable (BecomesWhole messageId l) :=
  inferInstanceAs (Decidable (_ ∧ _ ∧ (_ ∨ _)))

/-- The count after a range is added, from the slice it is in, what that added, and all
slices. -/
def countAfter (was count : Option ℤ) (incrementCount : Bool) (result : AddResult)
    (slices : List Slice) : Option ℤ :=
  let newCount :=
    if count.isSome then count
    else if incrementCount ∧ 0 < result.added then was.map (· + result.added)
    else was
  let newCount := match slices with
    | [only] => if only.range = (⟨0, ServerMaxMsgId⟩ : MsgRange) then some (only.messages.card : ℤ)
      else newCount
    | _ => newCount
  newCount.map (max · result.inslice)

theorem addRange_eq {messages : List MsgId} {noSkipRange : MsgRange} {count : Option ℤ}
    {incrementCount : Bool} (hcount : ¬(count.isSome = true ∧ incrementCount = true)) {s : Slice}
    {result : AddResult} {slices : List Slice}
    (hadd : addRangeItemsAndCountNew messages noSkipRange l.slices = some (s, result, slices)) :
    ∃ update, l.addRange messages noSkipRange count incrementCount =
      some (update, ⟨countAfter l.count count incrementCount result slices, slices⟩) := by
  rw [addRange, if_neg hcount, hadd]
  exact ⟨_, rfl⟩

theorem countAfter_of_whole {was count : Option ℤ} {incrementCount : Bool} {result : AddResult}
    {only : Slice} (hrange : only.range = ⟨0, ServerMaxMsgId⟩)
    (hinslice : result.inslice = only.messages.card) :
    countAfter was count incrementCount result [only] = some (only.messages.card : ℤ) := by
  rw [countAfter, if_pos hrange, Option.map_some, hinslice, max_self]

theorem countAfter_of_not_whole {was count : Option ℤ} {incrementCount : Bool} {result : AddResult}
    {slices : List Slice}
    (hnot : ∀ only, slices = [only] → only.range ≠ ⟨0, ServerMaxMsgId⟩) :
    countAfter was count incrementCount result slices =
      (if count.isSome then count
        else if incrementCount ∧ 0 < result.added then was.map (· + result.added)
        else was).map (max · result.inslice) := by
  rcases slices with _ | ⟨only, _ | ⟨next, rest⟩⟩
  · rfl
  · rw [countAfter, if_neg (hnot only rfl)]
  · rfl

/-- The list is one slice of everything when there are no others. -/
theorem whole_iff {s : Slice} (hbefore : ∀ b ∈ before, b.range.till < messageId)
    (hafter : ∀ a ∈ after, ServerMaxMsgId < a.range.fromId)
    (hmerged : Slice.Merged ⟨[messageId].toFinset, ⟨messageId, ServerMaxMsgId⟩⟩ united s)
    (hunited : ∀ u ∈ united, messageId ≤ u.range.till ∧ u.range.fromId ≤ ServerMaxMsgId)
    (hvalid : ∀ u ∈ l.slices, u.range.fromId ≤ u.range.till)
    (hslices : l.slices = before ++ united ++ after) :
    (∃ only, before ++ s :: after = [only] ∧ only.range = ⟨0, ServerMaxMsgId⟩) ↔
      BecomesWhole messageId l := by
  have hfrom := hmerged.fromId
  have htill := hmerged.till
  simp only at hfrom htill
  constructor
  · rintro ⟨only, hlist, hrange⟩
    have hempty : before = [] ∧ after = [] := by
      have hlength := congrArg List.length hlist
      rw [List.length_append, List.length_cons, List.length_singleton] at hlength
      exact ⟨List.eq_nil_of_length_eq_zero (by omega), List.eq_nil_of_length_eq_zero (by omega)⟩
    obtain ⟨rfl, rfl⟩ := hempty
    obtain rfl : s = only := by simpa using hlist
    rw [List.nil_append, List.append_nil] at hslices
    rw [hrange] at hfrom htill
    have hnonneg := (hfrom (-1)).mp (by decide)
    have hzero := mt (hfrom 0).mpr (lt_irrefl 0)
    have hmax := mt (htill ServerMaxMsgId).mpr (lt_irrefl ServerMaxMsgId)
    refine ⟨fun u hu => ?_, by grind, ?_⟩
    · rw [hslices] at hu
      have := hnonneg.2 u hu
      refine ⟨(hunited u hu).1, ?_, by grind⟩
      by_contra hlt
      have := (htill (ServerMaxMsgId + 1)).mp (by grind)
      have := this.2 u hu
      grind
    · by_contra hnot
      rw [not_or, not_exists] at hnot
      refine hzero ⟨by grind, fun u hu => ?_⟩
      have := hnonneg.2 u hu
      have := fun hz => hnot.2 u ⟨by rwa [hslices], hz⟩
      grind
  · rintro ⟨hall, hid, hstart⟩
    obtain rfl : before = [] := List.eq_nil_iff_forall_not_mem.mpr fun b hb => by
      have := (hall b (by simp [hslices, hb])).1
      have := hbefore b hb
      grind
    obtain rfl : after = [] := List.eq_nil_iff_forall_not_mem.mpr fun a ha => by
      have hmem : a ∈ l.slices := by simp [hslices, ha]
      have := (hall a hmem).2.1
      have := hafter a ha
      have := hvalid a hmem
      grind
    rw [List.nil_append, List.append_nil] at hslices
    rw [hslices] at hall hstart
    have hfromEq : s.range.fromId = 0 := by
      have hlow := (hfrom (-1)).mpr ⟨by grind, fun u hu => by
        have := (hall u hu).2.2
        grind⟩
      by_contra hne
      obtain ⟨hlt, hallLt⟩ := (hfrom 0).mp (by grind)
      obtain hzero | ⟨u, hu, hzero⟩ := hstart
      · grind
      · have := hallLt u hu
        grind
    have htillEq : s.range.till = ServerMaxMsgId := by
      have hup := (htill (ServerMaxMsgId + 1)).mpr ⟨by grind, fun u hu => by
        have := (hall u hu).2.1
        grind⟩
      by_contra hne
      obtain ⟨hlt, -⟩ := (htill ServerMaxMsgId).mp (by grind)
      grind
    refine ⟨s, rfl, ?_⟩
    rw [← hfromEq, ← htillEq]

theorem unitedWith_eq {range : MsgRange} (hbefore : ∀ b ∈ before, b.range.till < range.fromId)
    (hafter : ∀ a ∈ after, range.till < a.range.fromId)
    (hunited : ∀ u ∈ united, range.fromId ≤ u.range.till ∧ u.range.fromId ≤ range.till)
    (hslices : l.slices = before ++ united ++ after) : unitedWith range l = united := by
  have hnone : before.filter (fun s => range.fromId ≤ s.range.till ∧ s.range.fromId ≤ range.till) =
      [] := List.filter_eq_nil_iff.mpr fun b hb => by
    have := hbefore b hb
    simp only [decide_eq_true_eq]
    grind
  have hnone' : after.filter (fun s => range.fromId ≤ s.range.till ∧ s.range.fromId ≤ range.till) =
      [] := List.filter_eq_nil_iff.mpr fun a ha => by
    have := hafter a ha
    simp only [decide_eq_true_eq]
    grind
  have hself : united.filter (fun s => range.fromId ≤ s.range.till ∧ s.range.fromId ≤ range.till) =
      united := List.filter_eq_self.mpr fun u hu => decide_eq_true (hunited u hu)
  rw [unitedWith, hslices, List.filter_append, List.filter_append, hnone, hself, hnone',
    List.nil_append, List.append_nil]

/-- A known message is in the first slice that is united. -/
theorem mem_first_of_known (h : Knows ids l.slices)
    (hbefore : ∀ b ∈ before, b.range.till < messageId)
    (hafter : ∀ a ∈ after, ServerMaxMsgId < a.range.fromId) (hid : messageId ≤ ServerMaxMsgId)
    (hunited : ∀ u ∈ united, messageId ≤ u.range.till ∧ u.range.fromId ≤ ServerMaxMsgId)
    (hslices : l.slices = before ++ united ++ after) (hknown : messageId ∈ ids) :
    ∃ first rest, united = first :: rest ∧ messageId ∈ first.messages := by
  obtain ⟨t, ht, hmem⟩ := h.all messageId hknown
  have hrange := ((h.exact t ht messageId).mp hmem).1
  rw [MsgRange.mem_iff] at hrange
  have hapart := h.apart
  rw [hslices, List.append_assoc, List.pairwise_append, List.pairwise_append] at hapart
  rw [hslices, List.append_assoc, List.mem_append, List.mem_append] at ht
  obtain ht | ht | ht := ht
  · exact absurd hrange.2 (not_le.mpr (hbefore t ht))
  · cases united with
    | nil => cases ht
    | cons first rest =>
      obtain rfl | ht := List.mem_cons.mp ht
      · exact ⟨t, rest, rfl, hmem⟩
      · have := (List.pairwise_cons.mp hapart.2.1.1).1 t ht
        have := (hunited first List.mem_cons_self).1
        grind
  · exact absurd (hrange.1.trans hid) (not_le.mpr (hafter t ht))

/-- What is added is one for a new message, and what the other slices have. -/
theorem added_iff (h : Knows ids l.slices) {s : Slice}
    (hbefore : ∀ b ∈ before, b.range.till < messageId)
    (hafter : ∀ a ∈ after, ServerMaxMsgId < a.range.fromId) (hid : messageId ≤ ServerMaxMsgId)
    (hunited : ∀ u ∈ united, messageId ≤ u.range.till ∧ u.range.fromId ≤ ServerMaxMsgId)
    (hmerged : Slice.Merged ⟨[messageId].toFinset, ⟨messageId, ServerMaxMsgId⟩⟩ united s)
    (hslices : l.slices = before ++ united ++ after) {added new : ℤ}
    (hadded : added = s.messages.card - (united.head?.elim 0 fun first => first.messages.card))
    (hnew : new = if messageId ∈ ids then 0 else 1) :
    new ≤ added ∧ (added = new ↔ ∀ u ∈ united.tail, u.messages = ∅) := by
  have hfirst := mem_first_of_known h hbefore hafter hid hunited hslices
  have hmessages := hmerged.messages
  simp only [List.toFinset_cons, List.toFinset_nil, insert_empty_eq, Finset.mem_singleton]
    at hmessages
  cases united with
  | nil =>
    have hnot : messageId ∉ ids := fun hmem => by
      obtain ⟨first, rest, hno, -⟩ := hfirst hmem
      cases hno
    have hs : s.messages = {messageId} := by
      ext id
      rw [hmessages, Finset.mem_singleton]
      simp
    rw [if_neg hnot] at hnew
    rw [hs, Finset.card_singleton] at hadded
    have hone : added = 1 := by rw [hadded]; rfl
    rw [hone, hnew]
    exact ⟨le_rfl, iff_of_true rfl fun u hu => absurd hu List.not_mem_nil⟩
  | cons first rest =>
    have hapart := h.apart
    rw [hslices, List.append_assoc, List.pairwise_append, List.pairwise_append,
      List.pairwise_cons] at hapart
    obtain ⟨-, ⟨⟨hlater, -⟩, -, -⟩, -⟩ := hapart
    have hmemSlices : ∀ u ∈ first :: rest, u ∈ l.slices := fun u hu => by
      rw [hslices, List.append_assoc, List.mem_append, List.mem_append]
      exact .inr (.inl hu)
    have hreach := (hunited first List.mem_cons_self).1
    have hiff : messageId ∈ first.messages ↔ messageId ∈ ids := by
      refine ⟨fun hmem => ((h.exact first (hmemSlices first List.mem_cons_self) _).mp hmem).2,
        fun hmem => ?_⟩
      obtain ⟨first', rest', heq, hin⟩ := hfirst hmem
      rw [(List.cons.inj heq).1]
      exact hin
    have hcard : ((first.messages ∪ {messageId}).card : ℤ) = first.messages.card + new := by
      rw [Finset.union_comm, ← Finset.insert_eq, hnew]
      split_ifs with hmem
      · rw [Finset.insert_eq_of_mem (hiff.mpr hmem), Int.add_zero]
      · rw [Finset.card_insert_of_notMem (mt hiff.mp hmem), Int.natCast_succ]
    have hsubset : first.messages ∪ {messageId} ⊆ s.messages := by
      intro id hmem
      rw [Finset.mem_union, Finset.mem_singleton] at hmem
      exact (hmessages id).mpr (hmem.symm.imp_right fun hin => ⟨first, List.mem_cons_self, hin⟩)
    have hle := Finset.card_le_card hsubset
    have hhead : ((first :: rest).head?.elim 0 fun first => first.messages.card) =
        first.messages.card := rfl
    rw [hhead] at hadded
    refine ⟨by omega, ?_⟩
    rw [List.tail_cons]
    constructor
    · intro heq u hu
      have hsame := Finset.eq_of_subset_of_card_le hsubset (by omega)
      refine Finset.eq_empty_iff_forall_notMem.mpr fun id hin => ?_
      have hmem : id ∈ s.messages := (hmessages id).mpr (.inr ⟨u, List.mem_cons_of_mem _ hu, hin⟩)
      have hrange := ((h.exact u (hmemSlices u (List.mem_cons_of_mem _ hu)) id).mp hin).1
      have hlt := hlater u hu
      rw [MsgRange.mem_iff] at hrange
      rw [← hsame, Finset.mem_union, Finset.mem_singleton] at hmem
      obtain hmem | rfl := hmem
      · have hrange' := ((h.exact first (hmemSlices first List.mem_cons_self) id).mp hmem).1
        rw [MsgRange.mem_iff] at hrange'
        grind
      · grind
    · intro hempty
      have hsame : s.messages = first.messages ∪ {messageId} := by
        refine Finset.Subset.antisymm (fun id hmem => ?_) hsubset
        rw [Finset.mem_union, Finset.mem_singleton]
        obtain hmem | ⟨u, hu, hin⟩ := (hmessages id).mp hmem
        · exact .inr hmem
        · obtain rfl | hu := List.mem_cons.mp hu
          · exact .inl hin
          · rw [hempty u hu] at hin
            exact absurd hin (Finset.notMem_empty id)
      rw [hsame] at hadded
      omega


theorem known_card_le {server : Finset MsgId} (hserver : ids ⊆ server) :
    (((ids ∪ {messageId}).card : ℕ) : ℤ) ≤
      server.card + (if messageId ∈ ids then 0 else 1 : ℤ) := by
  have hcard := Finset.card_le_card hserver
  rw [Finset.union_comm, ← Finset.insert_eq]
  split_ifs with hmem
  · rw [Finset.insert_eq_of_mem hmem]
    omega
  · rw [Finset.card_insert_of_notMem hmem]
    omega

theorem known_card_eq_iff {server : Finset MsgId} (hserver : ids ⊆ server) :
    (((ids ∪ {messageId}).card : ℕ) : ℤ) =
      server.card + (if messageId ∈ ids then 0 else 1 : ℤ) ↔ server = ids := by
  have hiff : server.card = ids.card ↔ server = ids :=
    ⟨fun h => (Finset.eq_of_subset_of_card_le hserver h.le).symm, fun h => by rw [h]⟩
  rw [← hiff, Finset.union_comm, ← Finset.insert_eq]
  split_ifs with hmem
  · rw [Finset.insert_eq_of_mem hmem]
    omega
  · rw [Finset.card_insert_of_notMem hmem]
    omega

/-- With the number of the server's messages for a count, a new message is counted right when
only the first of the slices behind it has messages, or when everything is known. -/
theorem addNew_count_iff {ops : List Op} (hops : ∀ op ∈ ops, op.Valid) {l : SparseIdsList}
    (hrun : ({} : SparseIdsList).run ops = some l) {server : Finset MsgId}
    (hserver : known ops ⊆ server) (hcount : l.count = some (server.card : ℤ))
    (hid : messageId ≤ ServerMaxMsgId) :
    ∃ update l', l.addNew messageId = some (update, l') ∧
      (l'.count = some (if messageId ∈ known ops then (server.card : ℤ) else server.card + 1) ↔
        if BecomesWhole messageId l then server = known ops
        else ∀ s ∈ (unitedWith ⟨messageId, ServerMaxMsgId⟩ l).tail, s.messages = ∅) := by
  have hempty : Knows ∅ ({} : SparseIdsList).slices :=
    ⟨⟨List.Pairwise.nil, by simp⟩, by simp, by simp⟩
  obtain ⟨l₀, hrun₀, hknows⟩ := run_knows hempty hops
  obtain rfl : l₀ = l := Option.some.inj (hrun₀.symm.trans hrun)
  change Knows (known ops) _ at hknows
  have hrange : (⟨messageId, ServerMaxMsgId⟩ : MsgRange).fromId ≤ ServerMaxMsgId := hid
  obtain ⟨before, united, after, s, result, hslices, hbefore, hafter, hunited, hadd, hmerged,
    hinslice, hadded⟩ := addRangeItemsAndCountNew_spec [messageId] hknows.toOrdered hrange
  have hboth : ¬((none : Option ℤ).isSome = true ∧ true = true) := by simp
  obtain ⟨update, haddRange⟩ := addRange_eq hboth hadd
  refine ⟨update, _, haddRange, ?_⟩
  set new : ℤ := if messageId ∈ known ops then 0 else 1 with hnew
  have hgoal : (if messageId ∈ known ops then (server.card : ℤ) else server.card + 1) =
      server.card + new := by
    rw [hnew]
    split_ifs
    · exact (Int.add_zero _).symm
    · rfl
  obtain ⟨hle, hiff⟩ := added_iff hknows hbefore hafter hid hunited hmerged hslices hadded hnew
  have hinside : ∀ id ∈ [messageId], id ∈ (⟨messageId, ServerMaxMsgId⟩ : MsgRange) := by
    simpa [MsgRange.mem_iff] using hid
  obtain ⟨update', l', heq, hknown⟩ := addRange_knows hknows [messageId] hrange hinside none true
    hboth
  obtain ⟨-, rfl⟩ := Prod.mk.inj (Option.some.inj (haddRange.symm.trans heq))
  simp only [List.toFinset_cons, List.toFinset_nil, insert_empty_eq] at hknown
  rw [hgoal]
  by_cases hwhole : BecomesWhole messageId l₀
  · obtain ⟨only, hlist, hrange⟩ :=
      (whole_iff hbefore hafter hmerged hunited hknows.valid hslices).mpr hwhole
    obtain rfl : s = only := by
      have hmem : s ∈ before ++ s :: after := by simp
      rw [hlist] at hmem
      exact List.mem_singleton.mp hmem
    rw [hlist] at hknown
    have hall : s.messages = known ops ∪ {messageId} := by
      ext id
      constructor
      · exact fun hmem => ((hknown.exact s List.mem_cons_self id).mp hmem).2
      · intro hmem
        obtain ⟨t, ht, hin⟩ := hknown.all id hmem
        rwa [List.mem_singleton.mp ht] at hin
    rw [if_pos hwhole, hlist, countAfter_of_whole hrange hinslice, hall, Option.some_inj]
    exact known_card_eq_iff hserver
  · have hnot : ∀ only, before ++ s :: after = [only] → only.range ≠ ⟨0, ServerMaxMsgId⟩ :=
      fun only hlist hrange => hwhole
        ((whole_iff hbefore hafter hmerged hunited hknows.valid hslices).mp ⟨only, hlist, hrange⟩)
    have hsubset : s.messages ⊆ known ops ∪ {messageId} := fun id hmem =>
      ((hknown.exact s (by simp) id).mp hmem).2
    have hcard := Finset.card_le_card hsubset
    have hmost : (((known ops ∪ {messageId}).card : ℕ) : ℤ) ≤ server.card + new :=
      known_card_le hserver
    have hnonneg : 0 ≤ new := by
      rw [hnew]
      split_ifs <;> decide
    have hcountAfter : countAfter l₀.count none true result (before ++ s :: after) =
        some (server.card + result.added) := by
      rw [countAfter_of_not_whole hnot, hcount, hinslice]
      by_cases hpos : 0 < result.added
      · rw [if_neg (by simp), if_pos ⟨rfl, hpos⟩, Option.map_some, Option.map_some,
          max_eq_left (by omega)]
      · have hzero : result.added = 0 := by omega
        rw [if_neg (by simp), if_neg (fun h => hpos h.2), Option.map_some,
          max_eq_left (by omega), hzero, Int.add_zero]
    have hunitedWith : unitedWith ⟨messageId, ServerMaxMsgId⟩ l₀ = united :=
      unitedWith_eq hbefore hafter hunited hslices
    rw [if_neg hwhole, hcountAfter, hunitedWith, ← hiff, Option.some_inj]
    omega


/-- A message before the only slice, and the count of both. -/
theorem addNew_count_iff_first :
    let ops : List Op := [.addSlice [20] ⟨10, 30⟩ (some 1)]
    let l : SparseIdsList := ⟨some 1, [⟨{20}, ⟨10, 30⟩⟩]⟩
    ∃ update l', l.addNew 5 = some (update, l') ∧
      (l'.count = some (if 5 ∈ known ops then (({20} : Finset MsgId).card : ℤ)
          else ({20} : Finset MsgId).card + 1) ↔
        if BecomesWhole 5 l then ({20} : Finset MsgId) = known ops
        else ∀ s ∈ (unitedWith ⟨5, ServerMaxMsgId⟩ l).tail, s.messages = ∅) :=
  addNew_count_iff (by
    simp only [List.mem_singleton, forall_eq, Op.Valid, MsgRange.mem_iff]
    decide) rfl (by decide) rfl (by decide)

/-- A new message between two slices with a message each, of which there are two on the
server: the count after it is four, not three. -/
theorem addNew_counts_united_again :
    let ops : List Op := [.addSlice [10] ⟨10, 20⟩ (some 2), .addSlice [30] ⟨30, 40⟩ (some 2)]
    known ops = {10, 30} ∧ (15 : MsgId) ∉ known ops ∧
      ∃ l update l', ({} : SparseIdsList).run ops = some l ∧ l.count = some 2 ∧
        l.addNew 15 = some (update, l') ∧ l'.count = some 4 :=
  ⟨by decide, by decide, _, _, _, rfl, rfl, rfl, rfl⟩

end SparseIdsList

end Bettergram.Storage
