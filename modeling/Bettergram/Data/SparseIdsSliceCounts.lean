import Bettergram.Data.SparseIdsSliceBuilder
import Mathlib.Tactic.Linarith

/-! # The counts of a loaded slice

The ids and the numbers of messages before and behind them add up to the full
count, as long as nothing comes that the numbers known cannot be changed for.
-/

namespace Bettergram.Data
open Storage

namespace SparseIdsSliceBuilder

variable {b b' : SparseIdsSliceBuilder}

/-- The known numbers are not negative, and add up. -/
structure Exact (b : SparseIdsSliceBuilder) : Prop where
  before_nonneg : ∀ before ∈ b.skippedBefore, 0 ≤ before
  after_nonneg : ∀ after ∈ b.skippedAfter, 0 ≤ after
  adds_up : ∀ full ∈ b.fullCount, ∀ before ∈ b.skippedBefore, ∀ after ∈ b.skippedAfter,
    before + b.ids.card + after = full

/-- A full count and the number on one side give the number on the other side. -/
def Filled (b : SparseIdsSliceBuilder) : Prop :=
  b.fullCount.isSome → (b.skippedBefore.isSome ↔ b.skippedAfter.isSome)

/-! ## What agrees with the counts -/

/-- The numbers fit the full count, as far as they are known. -/
def Fits (full before after : Option ℤ) (number : ℕ) : Prop :=
  ∀ n ∈ full, match before, after with
    | some before, some after => before + number + after = n
    | some before, none => before + number ≤ n
    | none, some after => number + after ≤ n
    | none, none => True

/-- What is before the ids with new ones: what is reported before the new ones without the loaded
ids there, or what was skipped without the new ids there. -/
def beforeAll (messageIds : Finset MsgId) (reported : Option ℤ) (b : SparseIdsSliceBuilder) :
    Option ℤ :=
  match reported with
  | some skipped => (front messageIds).map fun first => max (skipped - (b.ids.filter (· < first)).card) 0
  | none => (front b.ids).bind fun first =>
      if 0 ≤ first then
        b.skippedBefore.map fun skipped => max (skipped - (messageIds.filter (· < first)).card) 0
      else none

def behindAll (messageIds : Finset MsgId) (reported : Option ℤ) (b : SparseIdsSliceBuilder) :
    Option ℤ :=
  match reported with
  | some skipped => (back messageIds).map fun last => max (skipped - (b.ids.filter (last < ·)).card) 0
  | none => (back b.ids).bind fun last =>
      if 0 ≤ last then
        b.skippedAfter.map fun skipped => max (skipped - (messageIds.filter (last < ·)).card) 0
      else none

/-- A count without ids is the known one, or not above the number of ids, or fits the numbers. -/
def CountAgrees (count : Option ℤ) (b : SparseIdsSliceBuilder) : Prop :=
  ∀ full ∈ count, b.fullCount = some full ∨ full ≤ b.ids.card ∨
    Fits (some full) b.skippedBefore b.skippedAfter b.ids.card

def DataAgrees (count : Option ℤ) (messageIds : Finset MsgId) (before after : Option ℤ)
    (b : SparseIdsSliceBuilder) : Prop :=
  if messageIds = ∅ then CountAgrees count b
  else Fits (count.or b.fullCount) (b.beforeAll messageIds before) (b.behindAll messageIds after)
    (b.ids ∪ messageIds).card

/-- A removed message is loaded, or counted on its side of the ids. -/
def RemovedAgrees (messageId : MsgId) (b : SparseIdsSliceBuilder) : Prop :=
  b.fullCount.any (0 < ·) → b.skippedBefore.isSome → b.skippedAfter.isSome →
    messageId ∈ b.ids ∨
    ((front b.ids).any (messageId < ·) ∧ b.skippedBefore.any (0 < ·)) ∨
    ((back b.ids).any (· < messageId) ∧ b.skippedAfter.any (0 < ·))

def Agrees (e : Event) (b : SparseIdsSliceBuilder) : Prop :=
  match e with
  | .applyInitial result =>
    DataAgrees result.count result.messageIds result.skippedBefore result.skippedAfter b
  | .applyUpdate update => DataAgrees update.count ((b.messagesToMerge update).getD ∅)
      (if update.range.fromId = 0 then some 0 else none)
      (if update.range.till = ServerMaxMsgId then some 0 else none) b
  | .removeOne messageId => RemovedAgrees messageId b
  | .removeAll | .invalidateBottom => True

/-! ## Cutting to the limits -/

theorem card_eraseFromBegin {n : ℤ} {ids ids' : Finset MsgId} (hn : 0 ≤ n)
    (h : eraseFromBegin n ids = some ids') : (ids'.card : ℤ) = ids.card - n := by
  rw [eraseFromBegin] at h
  split_ifs at h with hle
  obtain rfl := Option.some.inj h
  have hnodup : ((ids.sort (· ≤ ·)).drop n.toNat).Nodup :=
    (ids.sort_nodup (· ≤ ·)).sublist (List.drop_sublist ..)
  rw [List.toFinset_card_of_nodup hnodup, List.length_drop, Finset.length_sort]
  omega

theorem card_eraseFromEnd {n : ℤ} {ids ids' : Finset MsgId} (hn : 0 ≤ n)
    (h : eraseFromEnd n ids = some ids') : (ids'.card : ℤ) = ids.card - n := by
  rw [eraseFromEnd] at h
  split_ifs at h with hle
  obtain rfl := Option.some.inj h
  have hnodup : ((ids.sort (· ≤ ·)).take (ids.card - n.toNat)).Nodup :=
    (ids.sort_nodup (· ≤ ·)).sublist (List.take_sublist ..)
  rw [List.toFinset_card_of_nodup hnodup, List.length_take, Finset.length_sort]
  omega

/-- Requests change nothing that is counted. -/
theorem Exact.of_eq (h : b.Exact) (hids : b'.ids = b.ids) (hfull : b'.fullCount = b.fullCount)
    (hbefore : b'.skippedBefore = b.skippedBefore) (hafter : b'.skippedAfter = b.skippedAfter) :
    b'.Exact := by
  obtain ⟨h₁, h₂, h₃⟩ := h
  constructor
  · rwa [hbefore]
  · rwa [hafter]
  · rwa [hfull, hbefore, hafter, hids]

theorem sliceBefore_exact {n : ℤ} {requested : Bool} (hslice : b.sliceBefore n = some (requested, b'))
    (h : b.Exact) (hfilled : b.Filled) : b'.Exact ∧ b'.Filled := by
  rw [sliceBefore] at hslice
  split_ifs at hslice with hpos hneg
  · obtain ⟨ids, hids, heq⟩ := Option.map_eq_some_iff.mp hslice
    obtain rfl := (Prod.mk.inj heq).2
    have hcard := card_eraseFromBegin hpos.le hids
    refine ⟨⟨?_, h.after_nonneg, ?_⟩, fun hfull => ?_⟩
    · intro before hbefore
      obtain ⟨was, hwas, rfl⟩ := Option.map_eq_some_iff.mp hbefore
      have := h.before_nonneg was hwas
      omega
    · intro full hfull before hbefore after hafter
      obtain ⟨was, hwas, rfl⟩ := Option.map_eq_some_iff.mp hbefore
      have := h.adds_up full hfull was hwas after hafter
      dsimp only
      omega
    · rw [Option.isSome_map]
      exact hfilled hfull
  · obtain rfl := (Prod.mk.inj (Option.some.inj hslice)).2
    exact ⟨h.of_eq rfl rfl rfl rfl, hfilled⟩
  · obtain rfl := (Prod.mk.inj (Option.some.inj hslice)).2
    exact ⟨h, hfilled⟩

theorem sliceAfter_exact {n : ℤ} {requested : Bool} (hslice : b.sliceAfter n = some (requested, b'))
    (h : b.Exact) (hfilled : b.Filled) : b'.Exact ∧ b'.Filled := by
  rw [sliceAfter] at hslice
  split_ifs at hslice with hpos hneg
  · obtain ⟨ids, hids, heq⟩ := Option.map_eq_some_iff.mp hslice
    obtain rfl := (Prod.mk.inj heq).2
    have hcard := card_eraseFromEnd hpos.le hids
    refine ⟨⟨h.before_nonneg, ?_, ?_⟩, fun hfull => ?_⟩
    · intro after hafter
      obtain ⟨was, hwas, rfl⟩ := Option.map_eq_some_iff.mp hafter
      have := h.after_nonneg was hwas
      omega
    · intro full hfull before hbefore after hafter
      obtain ⟨was, hwas, rfl⟩ := Option.map_eq_some_iff.mp hafter
      have := h.adds_up full hfull before hbefore was hwas
      dsimp only
      omega
    · rw [Option.isSome_map]
      exact hfilled hfull
  · obtain rfl := (Prod.mk.inj (Option.some.inj hslice)).2
    exact ⟨h.of_eq rfl rfl rfl rfl, hfilled⟩
  · obtain rfl := (Prod.mk.inj (Option.some.inj hslice)).2
    exact ⟨h, hfilled⟩

theorem sliceToLimits_exact (hslice : b.sliceToLimits = some b') (h : b.Exact)
    (hfilled : b.Filled) : b'.Exact ∧ b'.Filled := by
  have hcount : ∀ {b b' : SparseIdsSliceBuilder} {p : Prop} [Decidable p],
      (if p then b.requestMessagesCount else b) = b' → b.Exact → b.Filled → b'.Exact ∧ b'.Filled := by
    intro b b' p _ heq h hfilled
    subst heq
    split_ifs
    · exact ⟨h.of_eq rfl rfl rfl rfl, hfilled⟩
    · exact ⟨h, hfilled⟩
  by_cases hkey : b.key = 0
  · rw [sliceToLimits, if_pos hkey] at hslice
    exact hcount (Option.some.inj hslice) h hfilled
  · rw [sliceToLimits, if_neg hkey] at hslice
    obtain ⟨⟨requestedBefore, b₁⟩, hbefore, hslice⟩ := Option.bind_eq_some_iff.mp hslice
    obtain ⟨⟨requestedAfter, b₂⟩, hafter, hslice⟩ := Option.bind_eq_some_iff.mp hslice
    obtain ⟨h₁, hfilled₁⟩ := sliceBefore_exact hbefore h hfilled
    obtain ⟨h₂, hfilled₂⟩ := sliceAfter_exact hafter h₁ hfilled₁
    exact hcount (Option.some.inj hslice) h₂ hfilled₂

/-! ## Filling in the other side -/

theorem fillSkipped_exact (hbefore : ∀ before ∈ b.skippedBefore, 0 ≤ before)
    (hafter : ∀ after ∈ b.skippedAfter, 0 ≤ after)
    (hfits : Fits b.fullCount b.skippedBefore b.skippedAfter b.ids.card) :
    b.fillSkipped.Exact ∧ b.fillSkipped.Filled := by
  obtain ⟨key, limitBefore, limitAfter, ids, range, full, before, after, insufficient⟩ := b
  cases full with
  | none => exact ⟨⟨hbefore, hafter, by simp [fillSkipped]⟩, by simp [fillSkipped, Filled]⟩
  | some full =>
    have hfull := hfits full rfl
    cases before with
    | none =>
      cases after with
      | none => exact ⟨⟨hbefore, hafter, by simp [fillSkipped]⟩, by simp [fillSkipped, Filled]⟩
      | some after =>
        have hpos := hafter after rfl
        dsimp only at hfull
        refine ⟨⟨?_, hafter, ?_⟩, by simp [fillSkipped, Filled]⟩
        · simp [fillSkipped]
          omega
        · simp [fillSkipped]
    | some before =>
      cases after with
      | none =>
        dsimp only at hfull
        refine ⟨⟨hbefore, ?_, ?_⟩, by simp [fillSkipped, Filled]⟩
        · simp [fillSkipped]
          omega
        · simp [fillSkipped]
      | some after =>
        dsimp only at hfull
        exact ⟨⟨hbefore, hafter, by simpa [fillSkipped] using hfull⟩, by simp [fillSkipped, Filled]⟩

theorem Exact.fits (h : b.Exact) (hfilled : b.Filled) :
    Fits b.fullCount b.skippedBefore b.skippedAfter b.ids.card := by
  intro full hfull
  have hsides := hfilled (Option.isSome_of_mem hfull)
  cases hbefore : b.skippedBefore with
  | none =>
    cases hafter : b.skippedAfter with
    | none => trivial
    | some after => simp [hbefore, hafter] at hsides
  | some before =>
    cases hafter : b.skippedAfter with
    | none => simp [hbefore, hafter] at hsides
    | some after => exact h.adds_up full hfull before hbefore after hafter

theorem mergeCount_exact {count : Option ℤ} (h : b.Exact) (hfilled : b.Filled)
    (hagrees : CountAgrees count b) :
    (b.mergeCount count).fillSkipped.Exact ∧ (b.mergeCount count).fillSkipped.Filled := by
  have hsame := fillSkipped_exact h.before_nonneg h.after_nonneg (h.fits hfilled)
  cases count with
  | none => exact hsame
  | some full =>
    rw [mergeCount]
    split_ifs with heq hle
    · exact hsame
    · refine fillSkipped_exact (by simp) (by simp) fun n hn => ?_
      obtain rfl := Option.some.inj hn
      simp
    · have hfits := ((hagrees full rfl).resolve_left heq).resolve_left hle
      exact fillSkipped_exact h.before_nonneg h.after_nonneg hfits

/-! ## Merging ids -/

theorem front_spec {ids : Finset MsgId} {first : MsgId} (h : front ids = some first) :
    first ∈ ids ∧ ∀ id ∈ ids, first ≤ id := by
  rw [front] at h
  split_ifs at h with hids
  obtain rfl := Option.some.inj h
  exact ⟨ids.min'_mem hids, fun id hid => ids.min'_le id hid⟩

theorem back_spec {ids : Finset MsgId} {last : MsgId} (h : back ids = some last) :
    last ∈ ids ∧ ∀ id ∈ ids, id ≤ last := by
  rw [back] at h
  split_ifs at h with hids
  obtain rfl := Option.some.inj h
  exact ⟨ids.max'_mem hids, fun id hid => ids.le_max' id hid⟩

/-- What is before an id that nothing of its own set is before. -/
theorem indexOf_union {ids more : Finset MsgId} {id : MsgId} (h : ∀ i ∈ more, id ≤ i) :
    indexOf id (ids ∪ more) = (ids.filter (· < id)).card := by
  have hmore : more.filter (· < id) = ∅ :=
    Finset.filter_eq_empty_iff.mpr fun i hi => not_lt.mpr (h i hi)
  rw [indexOf, Finset.filter_union, hmore, Finset.union_empty]

theorem card_sub_indexOf_union {ids more : Finset MsgId} {id : MsgId} (hid : id ∈ ids ∪ more)
    (h : ∀ i ∈ more, i ≤ id) :
    ((ids ∪ more).card : ℤ) - indexOf id (ids ∪ more) - 1 = (ids.filter (id < ·)).card := by
  have hmore : more.filter (id < ·) = ∅ :=
    Finset.filter_eq_empty_iff.mpr fun i hi => not_lt.mpr (h i hi)
  have habove : (ids ∪ more).filter (id < ·) = ids.filter (id < ·) := by
    rw [Finset.filter_union, hmore, Finset.union_empty]
  have hat : (ids ∪ more).filter (¬· < id) = insert id ((ids ∪ more).filter (id < ·)) := by
    ext i
    simp only [Finset.mem_filter, Finset.mem_insert, not_lt]
    constructor
    · rintro ⟨hi, hle⟩
      exact (eq_or_lt_of_le hle).imp Eq.symm fun hlt => ⟨hi, hlt⟩
    · rintro (rfl | ⟨hi, hlt⟩)
      · exact ⟨hid, le_rfl⟩
      · exact ⟨hi, hlt.le⟩
  have hsplit := Finset.card_filter_add_card_filter_not (s := ids ∪ more) (· < id)
  rw [hat, Finset.card_insert_of_notMem (by simp), habove] at hsplit
  rw [indexOf]
  omega

theorem adjustSkippedBefore_eq {ids : Finset MsgId} {id : MsgId} {old : ℤ} {result : ℤ}
    (h : adjustSkippedBefore id old ids = some result) : result = max (old - indexOf id ids) 0 := by
  rw [adjustSkippedBefore] at h
  split_ifs at h
  exact (Option.some.inj h).symm

theorem adjustSkippedAfter_eq {ids : Finset MsgId} {id : MsgId} {old : ℤ} {result : ℤ}
    (h : adjustSkippedAfter id old ids = some result) :
    id ∈ ids ∧ result = max (old - (ids.card - indexOf id ids - 1)) 0 := by
  rw [adjustSkippedAfter] at h
  split_ifs at h with hid
  exact ⟨hid, (Option.some.inj h).symm⟩

theorem skippedAfterMerge_before {messageIds : Finset MsgId} {reported result : Option ℤ}
    (h : skippedAfterMerge adjustSkippedBefore (front messageIds) reported
      ((front b.ids).getD (-1)) b.skippedBefore (b.ids ∪ messageIds) = some result) :
    result = b.beforeAll messageIds reported := by
  cases reported with
  | some skipped =>
    obtain ⟨first, hfirst, h⟩ := Option.bind_eq_some_iff.mp h
    obtain ⟨n, hn, h⟩ := Option.bind_eq_some_iff.mp h
    obtain rfl := Option.some.inj h
    rw [beforeAll, hfirst, Option.map_some, adjustSkippedBefore_eq hn,
      indexOf_union (front_spec hfirst).2]
  | none =>
    rw [beforeAll]
    cases hwas : b.skippedBefore with
    | none =>
      rw [hwas] at h
      obtain rfl := Option.some.inj h
      cases front b.ids with
      | none => rfl
      | some first => simp
    | some was =>
      rw [hwas] at h
      cases hfirst : front b.ids with
      | none =>
        rw [hfirst] at h
        exact (Option.some.inj h).symm
      | some first =>
        rw [hfirst, skippedAfterMerge, Option.getD_some] at h
        rw [Option.bind_some]
        split_ifs at h ⊢ with hpos
        · obtain ⟨n, hn, rfl⟩ := Option.map_eq_some_iff.mp h
          rw [adjustSkippedBefore_eq hn, Finset.union_comm, indexOf_union (front_spec hfirst).2]
          rfl
        · exact (Option.some.inj h).symm

theorem skippedAfterMerge_after {messageIds : Finset MsgId} {reported result : Option ℤ}
    (h : skippedAfterMerge adjustSkippedAfter (back messageIds) reported
      ((back b.ids).getD (-1)) b.skippedAfter (b.ids ∪ messageIds) = some result) :
    result = b.behindAll messageIds reported := by
  cases reported with
  | some skipped =>
    obtain ⟨last, hlast, h⟩ := Option.bind_eq_some_iff.mp h
    obtain ⟨n, hn, h⟩ := Option.bind_eq_some_iff.mp h
    obtain rfl := Option.some.inj h
    obtain ⟨hmem, rfl⟩ := adjustSkippedAfter_eq hn
    rw [behindAll, hlast, Option.map_some, card_sub_indexOf_union hmem (back_spec hlast).2]
  | none =>
    rw [behindAll]
    cases hwas : b.skippedAfter with
    | none =>
      rw [hwas] at h
      obtain rfl := Option.some.inj h
      cases back b.ids with
      | none => rfl
      | some last => simp
    | some was =>
      rw [hwas] at h
      cases hlast : back b.ids with
      | none =>
        rw [hlast] at h
        exact (Option.some.inj h).symm
      | some last =>
        rw [hlast, skippedAfterMerge, Option.getD_some] at h
        rw [Option.bind_some]
        split_ifs at h ⊢ with hpos
        · obtain ⟨n, hn, rfl⟩ := Option.map_eq_some_iff.mp h
          rw [Finset.union_comm] at hn
          obtain ⟨hmem, rfl⟩ := adjustSkippedAfter_eq hn
          rw [card_sub_indexOf_union hmem (back_spec hlast).2]
          rfl
        · exact (Option.some.inj h).symm

theorem beforeAll_nonneg {messageIds : Finset MsgId} {reported : Option ℤ} :
    ∀ before ∈ b.beforeAll messageIds reported, 0 ≤ before := by
  intro before hbefore
  cases reported with
  | some skipped =>
    obtain ⟨first, -, rfl⟩ := Option.map_eq_some_iff.mp hbefore
    exact le_max_right ..
  | none =>
    obtain ⟨first, -, hbefore⟩ := Option.bind_eq_some_iff.mp hbefore
    split_ifs at hbefore
    obtain ⟨skipped, -, rfl⟩ := Option.map_eq_some_iff.mp hbefore
    exact le_max_right ..

theorem behindAll_nonneg {messageIds : Finset MsgId} {reported : Option ℤ} :
    ∀ after ∈ b.behindAll messageIds reported, 0 ≤ after := by
  intro after hafter
  cases reported with
  | some skipped =>
    obtain ⟨last, -, rfl⟩ := Option.map_eq_some_iff.mp hafter
    exact le_max_right ..
  | none =>
    obtain ⟨last, -, hafter⟩ := Option.bind_eq_some_iff.mp hafter
    split_ifs at hafter
    obtain ⟨skipped, -, rfl⟩ := Option.map_eq_some_iff.mp hafter
    exact le_max_right ..

theorem mergeSliceData_exact {count before after : Option ℤ} {messageIds : Finset MsgId}
    (hmerge : b.mergeSliceData count messageIds before after = some b') (h : b.Exact)
    (hfilled : b.Filled) (hagrees : DataAgrees count messageIds before after b) :
    b'.Exact ∧ b'.Filled := by
  by_cases hnil : messageIds = ∅
  · rw [mergeSliceData, if_pos hnil] at hmerge
    rw [DataAgrees, if_pos hnil] at hagrees
    obtain ⟨hexact, hfilled⟩ := mergeCount_exact h hfilled hagrees
    exact sliceToLimits_exact hmerge hexact hfilled
  · rw [mergeSliceData, if_neg hnil] at hmerge
    rw [DataAgrees, if_neg hnil] at hagrees
    obtain ⟨newBefore, hbefore, hmerge⟩ := Option.bind_eq_some_iff.mp hmerge
    obtain ⟨newAfter, hafter, hmerge⟩ := Option.bind_eq_some_iff.mp hmerge
    obtain rfl := skippedAfterMerge_before hbefore
    obtain rfl := skippedAfterMerge_after hafter
    obtain ⟨hexact, hfilled⟩ := fillSkipped_exact (b := { b with
      ids := b.ids ∪ messageIds
      fullCount := count.or b.fullCount
      skippedBefore := b.beforeAll messageIds before
      skippedAfter := b.behindAll messageIds after }) beforeAll_nonneg behindAll_nonneg hagrees
    exact sliceToLimits_exact hmerge hexact hfilled

/-! ## Removing one id -/

theorem mem_counted {full full' : Option ℤ} {n' : ℤ}
    (h : full' = if full.any (0 < ·) then decrement full else full) (hn' : n' ∈ full') :
    ∃ n ∈ full, n' = if 0 < n then n - 1 else n := by
  subst h
  cases full with
  | none => simp [decrement] at hn'
  | some n =>
    refine ⟨n, rfl, ?_⟩
    rw [Option.any_some] at hn'
    by_cases hpos : 0 < n
    · rw [if_pos hpos]
      rw [if_pos (decide_eq_true hpos)] at hn'
      exact (Option.some.inj hn').symm
    · rw [if_neg hpos]
      rw [if_neg (by simpa using hpos)] at hn'
      exact (Option.some.inj hn').symm

theorem isSome_decrement (count : Option ℤ) : (decrement count).isSome = count.isSome :=
  Option.isSome_map

theorem mem_decrement {count : Option ℤ} {n : ℤ} (h : n ∈ decrement count) :
    ∃ m ∈ count, n = m - 1 := by
  obtain ⟨m, hm, rfl⟩ := Option.map_eq_some_iff.mp h
  exact ⟨m, hm, rfl⟩

theorem removeFromPart_exact {messageId : MsgId} {full : Option ℤ} (h : b.Exact)
    (hfilled : b.Filled) (hagrees : RemovedAgrees messageId b)
    (hfull : full = if b.fullCount.any (0 < ·) then decrement b.fullCount else b.fullCount) :
    (removeFromPart messageId { b with fullCount := full }).2.Exact ∧
      (removeFromPart messageId { b with fullCount := full }).2.Filled := by
  have hknown : full.isSome = b.fullCount.isSome := by
    rw [hfull]
    split_ifs
    · exact isSome_decrement _
    · rfl
  have hsame : Filled { b with fullCount := full } := fun hsome => hfilled (hknown ▸ hsome)
  -- nothing is decremented but the full count, and that only when it is not known on both sides
  have hother : (b.fullCount.any (0 < ·) → b.skippedBefore.isSome → b.skippedAfter.isSome → False) →
      Exact { b with fullCount := full } := by
    intro hnot
    refine ⟨h.before_nonneg, h.after_nonneg, fun n' hn' before hbefore after hafter => ?_⟩
    obtain ⟨n, hn, rfl⟩ := mem_counted hfull hn'
    have hsum := h.adds_up n hn before hbefore after hafter
    by_cases hpos : 0 < n
    · refine (hnot ?_ (Option.isSome_of_mem hbefore) (Option.isSome_of_mem hafter)).elim
      rw [hn, Option.any_some]
      exact decide_eq_true hpos
    · rwa [if_neg hpos]
  rw [removeFromPart]
  by_cases hmem : messageId ∈ b.ids
  · rw [if_pos hmem]
    refine ⟨⟨h.before_nonneg, h.after_nonneg, fun n' hn' before hbefore after hafter => ?_⟩, hsame⟩
    obtain ⟨n, hn, rfl⟩ := mem_counted hfull hn'
    have hsum := h.adds_up n hn before hbefore after hafter
    have hbefore' := h.before_nonneg before hbefore
    have hafter' := h.after_nonneg after hafter
    have hcard := Finset.card_erase_add_one hmem
    have hpos : 0 < n := by omega
    rw [if_pos hpos]
    dsimp only
    omega
  rw [if_neg hmem]
  by_cases hnil : b.ids = ∅
  · rw [if_pos hnil]
    refine ⟨hother fun hcounted hbefore hafter => ?_, hsame⟩
    have hfront : front b.ids = none := by simp [front, hnil]
    have hback : back b.ids = none := by simp [back, hnil]
    simpa [hmem, hfront, hback] using hagrees hcounted hbefore hafter
  rw [if_neg hnil]
  by_cases hbelow : (front b.ids).any (messageId < ·) ∧ b.skippedBefore.any (0 < ·)
  · rw [if_pos hbelow]
    refine ⟨⟨fun before hbefore => ?_, h.after_nonneg, fun n' hn' before hbefore after hafter => ?_⟩,
      fun hsome => ?_⟩
    · obtain ⟨was, hwas, rfl⟩ := mem_decrement hbefore
      have hpos : 0 < was := by
        have := hbelow.2
        rw [hwas, Option.any_some] at this
        exact of_decide_eq_true this
      omega
    · obtain ⟨was, hwas, rfl⟩ := mem_decrement hbefore
      obtain ⟨n, hn, rfl⟩ := mem_counted hfull hn'
      have hpos : 0 < was := by
        have := hbelow.2
        rw [hwas, Option.any_some] at this
        exact of_decide_eq_true this
      have hsum := h.adds_up n hn was hwas after hafter
      have hafter' := h.after_nonneg after hafter
      have hcount : 0 < n := by omega
      rw [if_pos hcount]
      dsimp only
      omega
    · rw [isSome_decrement]
      exact hsame hsome
  rw [if_neg hbelow]
  by_cases habove : (back b.ids).any (· < messageId) ∧ b.skippedAfter.any (0 < ·)
  · rw [if_pos habove]
    refine ⟨⟨h.before_nonneg, fun after hafter => ?_, fun n' hn' before hbefore after hafter => ?_⟩,
      fun hsome => ?_⟩
    · obtain ⟨was, hwas, rfl⟩ := mem_decrement hafter
      have hpos : 0 < was := by
        have := habove.2
        rw [hwas, Option.any_some] at this
        exact of_decide_eq_true this
      omega
    · obtain ⟨was, hwas, rfl⟩ := mem_decrement hafter
      obtain ⟨n, hn, rfl⟩ := mem_counted hfull hn'
      have hpos : 0 < was := by
        have := habove.2
        rw [hwas, Option.any_some] at this
        exact of_decide_eq_true this
      have hsum := h.adds_up n hn before hbefore was hwas
      have hbefore' := h.before_nonneg before hbefore
      have hcount : 0 < n := by omega
      rw [if_pos hcount]
      dsimp only
      omega
    · rw [isSome_decrement]
      exact hsame hsome
  rw [if_neg habove]
  refine ⟨hother fun hcounted hbefore hafter => ?_, hsame⟩
  obtain hloaded | hskipped | hskipped := hagrees hcounted hbefore hafter
  · exact hmem hloaded
  · exact hbelow hskipped
  · exact habove hskipped

theorem removeOne_exact {messageId : MsgId} {removed : Bool}
    (hremove : b.removeOne messageId = some (removed, b')) (h : b.Exact) (hfilled : b.Filled)
    (hagrees : RemovedAgrees messageId b) : b'.Exact ∧ b'.Filled := by
  have hcounted : (if b.fullCount.any (0 < ·) then { b with fullCount := decrement b.fullCount }
      else b) = { b with fullCount :=
        if b.fullCount.any (0 < ·) then decrement b.fullCount else b.fullCount } := by
    split_ifs
    · rfl
    · rfl
  rw [removeOne, hcounted] at hremove
  obtain ⟨hexact, hfilled⟩ := removeFromPart_exact h hfilled hagrees rfl
  generalize (if b.fullCount.any (0 < ·) then decrement b.fullCount else b.fullCount) = full
    at hremove hexact hfilled
  dsimp only at hremove
  split_ifs at hremove with hchanged
  · obtain ⟨b₁, hslice, heq⟩ := Option.map_eq_some_iff.mp hremove
    obtain rfl := (Prod.mk.inj heq).2
    exact sliceToLimits_exact hslice hexact hfilled
  · obtain rfl := (Prod.mk.inj (Option.some.inj hremove)).2
    exact ⟨hexact, hfilled⟩

end SparseIdsSliceBuilder

end Bettergram.Data
