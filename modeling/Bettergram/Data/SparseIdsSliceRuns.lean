import Bettergram.Data.SparseIdsSliceCounts

/-! # The counts over whole runs

Nothing is asserted or cut in vain while the limits are not negative. The counts
stay exact through all events that agree with them.
-/

namespace Bettergram.Data
open Storage

namespace SparseIdsSliceBuilder

variable {b b' : SparseIdsSliceBuilder}

/-! ## Runs return -/

def SameLimits (b b' : SparseIdsSliceBuilder) : Prop :=
  b'.limitBefore = b.limitBefore ∧ b'.limitAfter = b.limitAfter

theorem sliceToLimits_returns (hbefore : 0 ≤ b.limitBefore) (hafter : 0 ≤ b.limitAfter) :
    ∃ b', b.sliceToLimits = some b' ∧ SameLimits b b' := by
  have hindex : indexOf b.key b.ids ≤ b.ids.card := Finset.card_filter_le ..
  have hcut : ∀ n : ℤ, n ≤ b.ids.card → ∃ requested b₁, b.sliceBefore n = some (requested, b₁) ∧
      SameLimits b b₁ ∧ (b₁.ids.card : ℤ) = b.ids.card - max n 0 := by
    intro n hn
    rw [sliceBefore]
    split_ifs with hpos
    · obtain ⟨ids, hids⟩ : ∃ ids, eraseFromBegin n b.ids = some ids := ⟨_, if_pos hn⟩
      rw [hids, Option.map_some]
      refine ⟨false, _, rfl, ⟨rfl, rfl⟩, ?_⟩
      rw [max_eq_left hpos.le]
      exact card_eraseFromBegin hpos.le hids
    · exact ⟨true, _, rfl, ⟨rfl, rfl⟩, by rw [max_eq_right (not_lt.mp hpos), Int.sub_zero]; rfl⟩
    · exact ⟨false, b, rfl, ⟨rfl, rfl⟩, by rw [max_eq_right (not_lt.mp hpos), Int.sub_zero]⟩
  have hcut' : ∀ (b₁ : SparseIdsSliceBuilder) (n : ℤ), n ≤ b₁.ids.card →
      ∃ requested b₂, b₁.sliceAfter n = some (requested, b₂) ∧ SameLimits b₁ b₂ := by
    intro b₁ n hn
    rw [sliceAfter]
    split_ifs
    · obtain ⟨ids, hids⟩ : ∃ ids, eraseFromEnd n b₁.ids = some ids := ⟨_, if_pos hn⟩
      rw [hids, Option.map_some]
      exact ⟨false, _, rfl, rfl, rfl⟩
    · exact ⟨true, _, rfl, rfl, rfl⟩
    · exact ⟨false, b₁, rfl, rfl, rfl⟩
  by_cases hkey : b.key = 0
  · refine ⟨_, by rw [sliceToLimits, if_pos hkey], ?_⟩
    split_ifs
    · exact ⟨rfl, rfl⟩
    · exact ⟨rfl, rfl⟩
  · obtain ⟨requestedBefore, b₁, hb₁, hlimits₁, hcard⟩ :=
      hcut (indexOf b.key b.ids - b.limitBefore) (by omega)
    obtain ⟨requestedAfter, b₂, hb₂, hlimits₂⟩ :=
      hcut' b₁ (b.ids.card - indexOf b.key b.ids - b.limitAfter - 1) (by omega)
    have hlimits : SameLimits b b₂ := ⟨hlimits₂.1.trans hlimits₁.1, hlimits₂.2.trans hlimits₁.2⟩
    rw [sliceToLimits, if_neg hkey]
    dsimp only [Option.bind_eq_bind, Option.bind_some]
    rw [hb₁, Option.bind_some]
    dsimp only
    rw [hb₂, Option.bind_some]
    refine ⟨_, rfl, ?_⟩
    split_ifs
    · exact hlimits
    · exact hlimits

theorem front_isSome {ids : Finset MsgId} (h : ids ≠ ∅) : ∃ first, front ids = some first :=
  ⟨_, dif_pos (Finset.nonempty_iff_ne_empty.mpr h)⟩

theorem back_isSome {ids : Finset MsgId} (h : ids ≠ ∅) : ∃ last, back ids = some last :=
  ⟨_, dif_pos (Finset.nonempty_iff_ne_empty.mpr h)⟩

/-- The ids looked for after a merge are there. -/
theorem skippedAfterMerge_returns {adjust : MsgId → ℤ → Finset MsgId → Option ℤ}
    {newId wasId : MsgId} {ids : Finset MsgId}
    (hadjust : ∀ id ∈ ids, ∀ old, (adjust id old ids).isSome) (hnew : newId ∈ ids)
    (hwas : 0 ≤ wasId → wasId ∈ ids) (newSkipped wasSkipped : Option ℤ) :
    ∃ result, skippedAfterMerge adjust (some newId) newSkipped wasId wasSkipped ids = some result := by
  cases newSkipped with
  | some skipped =>
    obtain ⟨n, hn⟩ := Option.isSome_iff_exists.mp (hadjust newId hnew skipped)
    exact ⟨some n, by rw [skippedAfterMerge, Option.bind_eq_bind, Option.bind_some, hn]; rfl⟩
  | none =>
    cases wasSkipped with
    | none => exact ⟨none, rfl⟩
    | some skipped =>
      by_cases hpos : 0 ≤ wasId
      · obtain ⟨n, hn⟩ := Option.isSome_iff_exists.mp (hadjust wasId (hwas hpos) skipped)
        exact ⟨some n, by rw [skippedAfterMerge, if_pos hpos, hn]; rfl⟩
      · exact ⟨none, if_neg hpos⟩

theorem mergeSliceData_returns (hbefore : 0 ≤ b.limitBefore) (hafter : 0 ≤ b.limitAfter)
    (count : Option ℤ) (messageIds : Finset MsgId) (skippedBefore skippedAfter : Option ℤ) :
    ∃ b', b.mergeSliceData count messageIds skippedBefore skippedAfter = some b' ∧
      SameLimits b b' := by
  have hfill : ∀ b₁ : SparseIdsSliceBuilder, SameLimits b b₁ →
      ∃ b', b₁.fillSkippedAndSliceToLimits = some b' ∧ SameLimits b b' := by
    intro b₁ h₁
    have hfilled : SameLimits b b₁.fillSkipped := by
      rw [fillSkipped]
      split
      · exact h₁
      · exact h₁
      · exact h₁
    obtain ⟨b', hb', h'⟩ := sliceToLimits_returns (hfilled.1 ▸ hbefore) (hfilled.2 ▸ hafter)
    exact ⟨b', hb', h'.1.trans hfilled.1, h'.2.trans hfilled.2⟩
  rw [mergeSliceData]
  by_cases hnil : messageIds = ∅
  · rw [if_pos hnil]
    refine hfill _ ?_
    cases count with
    | none => exact ⟨rfl, rfl⟩
    | some full =>
      rw [mergeCount]
      split_ifs
      all_goals exact ⟨rfl, rfl⟩
  · rw [if_neg hnil]
    obtain ⟨first, hfirst⟩ := front_isSome hnil
    obtain ⟨last, hlast⟩ := back_isSome hnil
    have hmin : 0 ≤ (front b.ids).getD (-1) → (front b.ids).getD (-1) ∈ b.ids ∪ messageIds := by
      cases hfront : front b.ids with
      | none => simp
      | some id => exact fun _ => Finset.mem_union_left _ (front_spec hfront).1
    have hmax : 0 ≤ (back b.ids).getD (-1) → (back b.ids).getD (-1) ∈ b.ids ∪ messageIds := by
      cases hback : back b.ids with
      | none => simp
      | some id => exact fun _ => Finset.mem_union_left _ (back_spec hback).1
    have hadjustBefore : ∀ id ∈ b.ids ∪ messageIds, ∀ old,
        (adjustSkippedBefore id old (b.ids ∪ messageIds)).isSome := fun id hid old => by
      rw [adjustSkippedBefore, if_pos hid, Option.isSome_some]
    have hadjustAfter : ∀ id ∈ b.ids ∪ messageIds, ∀ old,
        (adjustSkippedAfter id old (b.ids ∪ messageIds)).isSome := fun id hid old => by
      rw [adjustSkippedAfter, if_pos hid, Option.isSome_some]
    obtain ⟨before, hbefore'⟩ := skippedAfterMerge_returns hadjustBefore
      (Finset.mem_union_right b.ids (front_spec hfirst).1) hmin skippedBefore b.skippedBefore
    obtain ⟨after, hafter'⟩ := skippedAfterMerge_returns hadjustAfter
      (Finset.mem_union_right b.ids (back_spec hlast).1) hmax skippedAfter b.skippedAfter
    dsimp only
    rw [hfirst, hlast, hbefore', Option.bind_eq_bind, Option.bind_some, hafter']
    exact hfill _ ⟨rfl, rfl⟩

theorem step_returns (hbefore : 0 ≤ b.limitBefore) (hafter : 0 ≤ b.limitAfter) (e : Event) :
    ∃ b', step e b = some b' ∧ SameLimits b b' := by
  cases e with
  | applyInitial result =>
    obtain ⟨b', hb', hlimits⟩ := mergeSliceData_returns hbefore hafter result.count
      result.messageIds result.skippedBefore result.skippedAfter
    exact ⟨b', by rw [step, applyInitial, hb']; rfl, hlimits⟩
  | applyUpdate update =>
    by_cases hnone : b.messagesToMerge update = none ∧ update.count = none
    · exact ⟨b, by rw [step, applyUpdate, if_pos hnone]; rfl, rfl, rfl⟩
    · obtain ⟨b', hb', hlimits⟩ := mergeSliceData_returns hbefore hafter update.count
        ((b.messagesToMerge update).getD ∅) (if update.range.fromId = 0 then some 0 else none)
        (if update.range.till = ServerMaxMsgId then some 0 else none)
      exact ⟨b', by rw [step, applyUpdate, if_neg hnone, hb']; rfl, hlimits⟩
  | removeOne messageId =>
    have hpart : ∀ b₁ : SparseIdsSliceBuilder, SameLimits b b₁ →
        SameLimits b (b₁.removeFromPart messageId).2 := by
      intro b₁ h₁
      rw [removeFromPart]
      split_ifs
      all_goals exact h₁
    have hboth : SameLimits b (removeFromPart messageId
        (if b.fullCount.any (0 < ·) then { b with fullCount := decrement b.fullCount } else b)).2 := by
      split_ifs
      · exact hpart _ ⟨rfl, rfl⟩
      · exact hpart _ ⟨rfl, rfl⟩
    rw [step, removeOne]
    dsimp only
    generalize removeFromPart messageId
      (if b.fullCount.any (0 < ·) then { b with fullCount := decrement b.fullCount } else b) =
        removed at hboth ⊢
    obtain ⟨b', hb', hlimits⟩ := sliceToLimits_returns (b := removed.2)
      (by rw [hboth.1]; exact hbefore) (by rw [hboth.2]; exact hafter)
    split_ifs
    · refine ⟨b', by rw [checkInsufficient, hb']; rfl, ?_⟩
      exact ⟨hlimits.1.trans hboth.1, hlimits.2.trans hboth.2⟩
    · exact ⟨removed.2, rfl, hboth⟩
  | removeAll => exact ⟨_, rfl, rfl, rfl⟩
  | invalidateBottom =>
    obtain ⟨b', hb', hlimits⟩ := sliceToLimits_returns (b := { b with
      fullCount := none
      skippedAfter := none
      range := if b.range.till = ServerMaxMsgId then
          { b.range with till := (back b.ids).getD b.range.fromId }
        else b.range }) hbefore hafter
    refine ⟨b', ?_, hlimits⟩
    rw [step, invalidateBottom, checkInsufficient]
    dsimp only
    rw [hb']
    rfl

theorem run_returns (hbefore : 0 ≤ b.limitBefore) (hafter : 0 ≤ b.limitAfter)
    (events : List Event) : ∃ b', run events b = some b' := by
  induction events generalizing b with
  | nil => exact ⟨b, rfl⟩
  | cons e es ih =>
    obtain ⟨b₁, hb₁, hlimits⟩ := step_returns hbefore hafter e
    obtain ⟨b', hb'⟩ := ih (b := b₁) (hlimits.1 ▸ hbefore) (hlimits.2 ▸ hafter)
    exact ⟨b', by rw [run, hb₁, Option.bind_some, hb']⟩

/-! ## Runs -/

theorem step_exact {e : Event} (hstep : step e b = some b') (h : b.Exact) (hfilled : b.Filled)
    (hagrees : Agrees e b) : b'.Exact ∧ b'.Filled := by
  cases e with
  | applyInitial result =>
    obtain ⟨⟨flag, b₁⟩, happly, rfl⟩ := Option.map_eq_some_iff.mp hstep
    obtain ⟨b₂, hmerge, heq⟩ := Option.map_eq_some_iff.mp happly
    obtain rfl := (Prod.mk.inj heq).2
    exact mergeSliceData_exact hmerge h hfilled hagrees
  | applyUpdate update =>
    obtain ⟨⟨flag, b₁⟩, happly, rfl⟩ := Option.map_eq_some_iff.mp hstep
    rw [applyUpdate] at happly
    by_cases hnone : b.messagesToMerge update = none ∧ update.count = none
    · rw [if_pos hnone] at happly
      obtain rfl := (Prod.mk.inj (Option.some.inj happly)).2
      exact ⟨h, hfilled⟩
    · rw [if_neg hnone] at happly
      obtain ⟨b₂, hmerge, heq⟩ := Option.map_eq_some_iff.mp happly
      obtain rfl := (Prod.mk.inj heq).2
      exact mergeSliceData_exact hmerge h hfilled hagrees
  | removeOne messageId =>
    obtain ⟨⟨flag, b₁⟩, hremove, rfl⟩ := Option.map_eq_some_iff.mp hstep
    exact removeOne_exact hremove h hfilled hagrees
  | removeAll =>
    obtain rfl := Option.some.inj hstep
    refine ⟨⟨?_, ?_, ?_⟩, fun _ => Iff.rfl⟩
    all_goals simp [removeAll]
  | invalidateBottom =>
    obtain ⟨⟨flag, b₁⟩, hinvalid, rfl⟩ := Option.map_eq_some_iff.mp hstep
    obtain ⟨b₂, hslice, heq⟩ := Option.map_eq_some_iff.mp hinvalid
    obtain rfl := (Prod.mk.inj heq).2
    refine sliceToLimits_exact hslice ⟨h.before_nonneg, ?_, ?_⟩ fun hsome => ?_
    · simp
    · simp
    · simp at hsome

/-- Each event agrees with the counts in the state it comes in. -/
def AllAgree : List Event → SparseIdsSliceBuilder → Prop
  | [], _ => True
  | e :: es, b => Agrees e b ∧ ∀ b' ∈ step e b, AllAgree es b'

theorem run_exact {events : List Event} (hrun : run events b = some b') (h : b.Exact)
    (hfilled : b.Filled) (hagree : AllAgree events b) : b'.Exact := by
  induction events generalizing b with
  | nil =>
    obtain rfl := Option.some.inj hrun
    exact h
  | cons e es ih =>
    obtain ⟨b₁, hstep, hrun⟩ := Option.bind_eq_some_iff.mp hrun
    obtain ⟨hexact, hfilled⟩ := step_exact hstep h hfilled hagree.1
    exact ih hrun hexact hfilled (hagree.2 b₁ hstep)

/-- The first ids of a list, with two messages behind them. -/
def loaded : SparseIdsSliceBuilder :=
  { key := 10, limitBefore := 5, limitAfter := 5, ids := {10}, fullCount := some 3,
    skippedBefore := some 0, skippedAfter := some 2, insufficientAround := [⟨10, .After⟩] }

def load : Event := .applyInitial ⟨some 3, some 0, some 2, {10}⟩

theorem step_load :
    step load ⟨10, 5, 5, ∅, {}, none, none, none, []⟩ = some loaded := by
  decide

/-- The list gets longer at its end, which is not loaded. -/
def grow : Event := .applyUpdate ⟨some {1000}, ⟨1000, ServerMaxMsgId⟩, some 4⟩

theorem step_grow : step grow loaded =
    some { loaded with fullCount := some 4, insufficientAround := [⟨10, .After⟩, ⟨10, .After⟩] } := by
  decide

end SparseIdsSliceBuilder

end Bettergram.Data
