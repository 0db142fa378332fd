import Bettergram.Data.PtsWaiterRuns
import Mathlib.Tactic.IntervalCases

/-! # Every update once

Updates that share out the positions between two states are applied once each
and in order, however they come.
-/

namespace Bettergram.Data
open Foundation

variable {α : Type}

/-- Every position behind `base` up to `last` belongs to just one of the updates. -/
structure SharesOut (base last : ℤ) (us : List (Update α)) : Prop where
  positive : ∀ u ∈ us, u.positive
  inside : ∀ u ∈ us, base ≤ u.interval.lo ∧ u.interval.hi ≤ last
  apart : Apart (us.map Update.interval)
  covers : ∀ p, base < p → p ≤ last → Covers us p

namespace Update

variable {u e : Update α}

theorem pts_mem_positions (h : u.positive) : u.pts.toInt ∈ u.interval.positions := by
  rw [Stretch.mem_positions]
  simp only [interval, positive] at h ⊢
  omega

theorem pts_ne_of_disjoint (hu : u.positive) (he : e.positive)
    (h : Disjoint e.interval.positions u.interval.positions) : e.pts.toInt ≠ u.pts.toInt := by
  intro heq
  exact Finset.disjoint_left.mp h (pts_mem_positions he) (heq ▸ pts_mem_positions hu)

end Update

namespace SharesOut

variable {base last : ℤ} {us order : List (Update α)}

theorem perm (h : SharesOut base last us) (hperm : order.Perm us) : SharesOut base last order where
  positive u hu := h.positive u (hperm.mem_iff.mp hu)
  inside u hu := h.inside u (hperm.mem_iff.mp hu)
  apart := (hperm.map _).symm.pairwise h.apart fun hd => hd.symm
  covers p h₁ h₂ := by
    obtain ⟨u, hu, hrest⟩ := h.covers p h₁ h₂
    exact ⟨u, hperm.mem_iff.mpr hu, hrest⟩

theorem disjoint (h : SharesOut base last us) {before after : List (Update α)} {u : Update α}
    (hsplit : us = before ++ u :: after) :
    ∀ e ∈ before, Disjoint e.interval.positions u.interval.positions := by
  intro e he
  have hapart := h.apart
  rw [hsplit, List.map_append, List.map_cons, Apart, List.pairwise_append] at hapart
  exact hapart.2.2 _ (List.mem_map_of_mem he) _ (by simp)

theorem nodup_pts (h : SharesOut base last us) : (us.map fun u => u.pts.toInt).Nodup := by
  rw [List.Nodup, List.pairwise_map]
  refine (List.pairwise_map.mp h.apart).imp_of_mem fun he hu hd => ?_
  exact Update.pts_ne_of_disjoint (h.positive _ hu) (h.positive _ he) hd

/-- An update that is still to come lies above what is covered. -/
theorem fresh (h : SharesOut base last us) {before after : List (Update α)} {u : Update α}
    (hsplit : us = before ++ u :: after) {good : ℤ}
    (hcovered : ∀ p, base < p → p ≤ good → Covers before p) :
    good < u.pts.toInt ∧ Fresh before good u := by
  have hmem : u ∈ us := by simp [hsplit]
  have hpos := h.positive u hmem
  have hinside := (h.inside u hmem).1
  have hdisjoint := h.disjoint hsplit
  have hlo : good ≤ u.interval.lo := by
    by_contra hlt
    have hnext : u.interval.lo + 1 ∈ u.interval.positions := by
      rw [Stretch.mem_positions]
      simp only [Update.interval, Update.positive] at hpos ⊢
      omega
    obtain ⟨e, he, -, hp⟩ := hcovered (u.interval.lo + 1) (by omega) (by omega)
    exact Finset.disjoint_left.mp (hdisjoint e he) hp hnext
  refine ⟨?_, hlo, fun e he _ _ => hdisjoint e he⟩
  simp only [Update.interval, Update.positive] at hpos hlo
  omega

end SharesOut

namespace PtsWaiter

variable {w : PtsWaiter α} {u e : Update α} {base last : ℤ}
  {delivered applied us order : List (Update α)}

/-! ## The queue -/

theorem toInt_of_positive {pts : Int32} (h : 0 < pts.toInt) :
    (pts.toUInt32.toNat : ℤ) = pts.toInt := by
  have hbits : pts.toInt = pts.toBitVec.toInt := rfl
  have hcond := BitVec.toInt_eq_toNat_cond pts.toBitVec
  have hlt := pts.toBitVec.isLt
  rw [hbits] at h ⊢
  change (pts.toBitVec.toNat : ℤ) = _
  split at hcond <;> omega

/-- The upper half of a key tells the `pts`. -/
theorem ptsKey_div {pts : Int32} (h : 0 < pts.toInt) (key : UInt32) :
    (((ptsKey pts key).toNat / 2 ^ 32 : ℕ) : ℤ) = pts.toInt := by
  have hkey := key.toNat_lt
  have hpts := pts.toUInt32.toNat_lt
  have hshift : (32 : UInt64).toNat % 64 = 32 := rfl
  rw [← toInt_of_positive h, ptsKey]
  simp only [UInt64.toNat_or, UInt64.toNat_shiftLeft, UInt32.toNat_toUInt64, hshift]
  rw [Nat.mod_eq_of_lt (by rw [Nat.shiftLeft_eq]; omega), ← Nat.shiftLeft_add_eq_or_of_lt hkey,
    Nat.shiftLeft_eq]
  congr 1
  omega

/-- The updates that were put aside, by key. -/
def queued (w : PtsWaiter α) : List (Update α) := w.queue.toList.map Prod.snd

def Keyed (w : PtsWaiter α) : Prop :=
  ∀ (k : UInt64) (e : Update α), w.queue[k]? = some e → ((k.toNat / 2 ^ 32 : ℕ) : ℤ) = e.pts.toInt

theorem mem_queued : e ∈ w.queued ↔ w.Held e := by
  constructor
  · intro he
    obtain ⟨⟨k, e⟩, hmem, rfl⟩ := List.mem_map.mp he
    exact ⟨k, Std.TreeMap.mem_toList_iff_getElem?_eq_some.mp hmem⟩
  · rintro ⟨k, hk⟩
    exact List.mem_map.mpr ⟨(k, e), Std.TreeMap.mem_toList_iff_getElem?_eq_some.mpr hk, rfl⟩

theorem queued_eq_nil_iff : w.queued = [] ↔ w.queue.isEmpty = true := by
  constructor
  · intro h
    by_contra hne
    obtain ⟨k, hk⟩ := Std.TreeMap.isEmpty_eq_false_iff_exists_mem.mp (by simpa using hne)
    obtain ⟨e, he⟩ := Option.isSome_iff_exists.mp (Std.TreeMap.mem_iff_isSome_getElem?.mp hk)
    have hmem : e ∈ w.queued := mem_queued.mpr ⟨k, he⟩
    rw [h] at hmem
    cases hmem
  · intro h
    apply List.eq_nil_iff_forall_not_mem.mpr
    intro e he
    exact not_held_of_isEmpty h (mem_queued.mp he)

theorem Keyed.insert (h : w.Keyed) (hu : 0 < u.pts.toInt) : (w.insert u).Keyed := by
  intro k e hk
  simp only [PtsWaiter.insert, Std.TreeMap.getElem?_insert] at hk
  split at hk
  · next heq =>
    rw [← Std.LawfulEqCmp.eq_of_compare heq, ← Option.some.inj hk]
    exact ptsKey_div hu _
  · exact h k e hk

/-- Nothing is overwritten as long as no two updates have one `pts`. -/
theorem queued_insert (h : w.Keyed) (hu : 0 < u.pts.toInt)
    (hne : ∀ e, w.Held e → e.pts.toInt ≠ u.pts.toInt) :
    (w.insert u).queued.Perm (u :: w.queued) := by
  have hperm := (Std.TreeMap.toList_insert_perm (t := w.queue)
    (k := ptsKey u.pts (w.skippedKey + 1)) (v := u)).map Prod.snd
  have hall : w.queue.toList.filter (fun x => ¬(ptsKey u.pts (w.skippedKey + 1) == x.1) = true) =
      w.queue.toList := by
    apply List.filter_eq_self.mpr
    rintro ⟨k, e⟩ he
    have hk : w.queue[k]? = some e := Std.TreeMap.mem_toList_iff_getElem?_eq_some.mp he
    have hkey : ptsKey u.pts (w.skippedKey + 1) ≠ k := by
      rintro rfl
      exact hne e ⟨_, hk⟩ ((h _ e hk).symm.trans (ptsKey_div hu _))
    simpa using hkey
  rwa [hall] at hperm

/-- The keys order the queue by `pts`. -/
theorem Keyed.sorted (h : w.Keyed) (hnodup : (w.queued.map fun e => e.pts.toInt).Nodup) :
    w.queued.Pairwise fun a b => a.pts.toInt < b.pts.toInt := by
  have hordered := Std.TreeMap.ordered_keys_toList (t := w.queue)
  rw [List.Nodup, List.pairwise_map, queued, List.pairwise_map] at hnodup
  rw [queued, List.pairwise_map]
  refine (hordered.and hnodup).imp_of_mem ?_
  rintro ⟨j, a⟩ ⟨k, b⟩ ha hb ⟨hlt, hne⟩
  have hjk : j < k := compareOfLessAndEq_eq_lt.mp hlt
  have hja := h j a (Std.TreeMap.mem_toList_iff_getElem?_eq_some.mp ha)
  have hkb := h k b (Std.TreeMap.mem_toList_iff_getElem?_eq_some.mp hb)
  have hdiv : j.toNat / 2 ^ 32 ≤ k.toNat / 2 ^ 32 :=
    Nat.div_le_div_right (UInt64.lt_iff_toNat_lt.mp hjk).le
  dsimp only at hne ⊢
  omega

theorem queued_of_queue_eq {w' : PtsWaiter α} (h : w'.queue = w.queue) : w'.queued = w.queued := by
  rw [queued, h, queued]

/-! ## One delivery -/

/-- The update with what was put aside before. -/
def joined (u : Update α) (w : PtsWaiter α) : PtsWaiter α :=
  if u.content.isSome then w.insert u else w

/-- When the gap is closed everything is applied, the update itself at its place. -/
theorem perform_closed {w₁ : PtsWaiter α} (hupdated : w.updated u = (true, w₁))
    (hwaiting : w₁.waitingForSkipped = false → w₁.queue.isEmpty = true) :
    (w.perform (.updateAndApply u)).1 = (w₁.joined u).queued ∧
      (w.perform (.updateAndApply u)).2.queue.isEmpty = true := by
  simp only [perform, updateAndApply, hupdated, joined]
  cases hcontent : u.content with
  | none =>
    simp only [Option.isSome_none, Bool.false_eq_true, if_false, applySkippedUpdates]
    cases hwait : w₁.waitingForSkipped with
    | false =>
      have hempty := hwaiting hwait
      simpa [queued_eq_nil_iff.mpr hempty] using hempty
    | true =>
      by_cases hempty : w₁.queue.isEmpty = true
      · simp [setWaitingForSkipped, hempty, queued_eq_nil_iff.mpr hempty]
      · simp [setWaitingForSkipped, hempty, queued, clearSkippedUpdates]
  | some content =>
    simp only [Option.isSome_some, if_true]
    by_cases hempty : w₁.queue.isEmpty = true
    · rw [if_pos (.inr hempty)]
      refine ⟨?_, hempty⟩
      have hnil : w₁.queue.toList = [] := by simpa [queued] using queued_eq_nil_iff.mpr hempty
      have hperm := Std.TreeMap.toList_insert_perm (t := w₁.queue)
        (k := ptsKey u.pts (w₁.skippedKey + 1)) (v := u)
      rw [hnil, List.filter_nil] at hperm
      rw [queued, PtsWaiter.insert, List.perm_singleton.mp hperm]
      rfl
    · have hwait : w₁.waitingForSkipped = true := by
        by_contra hno
        exact hempty (hwaiting (by simpa using hno))
      have hmore : (w₁.insert u).queue.isEmpty = false := by simp [PtsWaiter.insert]
      have hwait' : (w₁.insert u).waitingForSkipped = true := hwait
      simp [hempty, hwait, applySkippedUpdates, setWaitingForSkipped, hmore, hwait', queued,
        clearSkippedUpdates]

/-- What was applied and what is put aside, after what was delivered. -/
structure Progress (delivered applied : List (Update α)) (w : PtsWaiter α) : Prop where
  keyed : w.Keyed
  share : (applied ++ w.queued).Perm (delivered.filter fun u => u.content.isSome)
  settled : w.last = w.count → w.queued = []
  waiting : w.waitingForSkipped = false → w.queued = []
  below : ∀ e ∈ applied, e.pts.toInt ≤ w.current
  above : ∀ e ∈ w.queued, w.current < e.pts.toInt
  sorted : applied.Pairwise fun a b => a.pts.toInt < b.pts.toInt

theorem progress_initialised (base : ℤ) : Progress [] [] (initialised base : PtsWaiter α) := by
  have hqueued : (initialised base : PtsWaiter α).queued = [] := queued_eq_nil_iff.mpr rfl
  exact {
    keyed := fun k e hk => by simp [initialised, init, clearSkippedUpdates] at hk
    share := by simp [hqueued]
    settled := fun _ => hqueued
    waiting := fun _ => hqueued
    below := by simp
    above := by simp [hqueued]
    sorted := List.Pairwise.nil }

open scoped List in
theorem Progress.joined_perm (h : Progress delivered applied w) (hu : 0 < u.pts.toInt)
    (hne : ∀ e ∈ delivered, e.pts.toInt ≠ u.pts.toInt) {w₁ : PtsWaiter α}
    (hqueue : w₁.queue = w.queue) :
    (w₁.joined u).Keyed ∧ (applied ++ (w₁.joined u).queued).Perm
      ((delivered ++ [u]).filter fun u => u.content.isSome) := by
  have hkeyed : w₁.Keyed := by
    intro k e hk
    rw [hqueue] at hk
    exact h.keyed k e hk
  have hqueued := queued_of_queue_eq hqueue
  rw [List.filter_append, joined]
  cases hcontent : u.content with
  | none => simpa [hcontent, hqueued] using And.intro hkeyed h.share
  | some content =>
    have hheld : ∀ e, w₁.Held e → e.pts.toInt ≠ u.pts.toInt := by
      intro e he
      have hmem : e ∈ applied ++ w.queued := by
        rw [← hqueued]
        exact List.mem_append_right _ (mem_queued.mpr he)
      exact hne e (List.mem_filter.mp (h.share.mem_iff.mp hmem)).1
    have hinsert := queued_insert hkeyed hu hheld
    simp only [Option.isSome_some, if_true]
    refine ⟨hkeyed.insert hu, ?_⟩
    calc applied ++ (w₁.insert u).queued
      _ ~ applied ++ u :: w.queued := (hqueued ▸ hinsert).append_left _
      _ ~ u :: (applied ++ w.queued) := List.perm_middle
      _ ~ u :: delivered.filter (fun u => u.content.isSome) := h.share.cons u
      _ ~ delivered.filter (fun u => u.content.isSome) ++ [u] :=
        (List.perm_append_singleton u _).symm
      _ ~ _ := by simp [hcontent]

theorem waiting_counted (h : (w.counted u).last ≠ (w.counted u).count) :
    (w.counted u).waitingForSkipped = true := by
  unfold counted at h ⊢
  dsimp only at h ⊢
  split at h
  · next heq => exact absurd heq h
  · next hne => rw [if_neg hne]; rfl

theorem waitingForSkipped_counted (h : (w.counted u).waitingForSkipped = false) :
    w.waitingForSkipped = false := by
  unfold counted at h
  dsimp only at h
  split at h
  · exact h
  · cases h

/-- One more update that was not there yet. -/
theorem Progress.perform (h : Progress delivered applied w) (hwaits : Waits base delivered w)
    (hbase : 0 < base) (hpositive : u.positive) (habove : w.current < u.pts.toInt)
    (hnodup : ((delivered ++ [u]).map fun e => e.pts.toInt).Nodup) :
    Progress (delivered ++ [u]) (applied ++ (w.perform (.updateAndApply u)).1)
      (w.perform (.updateAndApply u)).2 := by
  obtain ⟨pending, hcounts⟩ := hwaits.counts
  have hgood : 0 < w.good := hbase.trans_le hcounts.base_le
  have hpts : 0 < u.pts.toInt := hgood.trans habove
  obtain ⟨hmax, hcount, hqueue, -, -, hgood'⟩ := w.counted_frame u
  have hne : ∀ e ∈ delivered, e.pts.toInt ≠ u.pts.toInt := by
    intro e he
    rw [List.map_append, List.nodup_append] at hnodup
    exact hnodup.2.2 _ (List.mem_map_of_mem he) _ (by simp)
  obtain ⟨hkeyed, hshare⟩ := h.joined_perm hpts hne hqueue
  have hsorted : ((w.counted u).joined u).queued.Pairwise fun a b => a.pts.toInt < b.pts.toInt := by
    apply hkeyed.sorted
    have hall := (hshare.map fun e => e.pts.toInt).nodup_iff.mpr
      (hnodup.sublist ((List.filter_sublist).map _))
    rw [List.map_append] at hall
    exact hall.of_append_right
  have hmem : ∀ e ∈ ((w.counted u).joined u).queued,
      w.current < e.pts.toInt ∧ e.pts.toInt ≤ (w.counted u).last := by
    intro e he
    have he' : e = u ∨ e ∈ w.queued := by
      rw [mem_queued, joined] at he
      split at he
      · exact he.of_insert.imp_right fun ⟨k, hk⟩ => mem_queued.mpr ⟨k, by rwa [hqueue] at hk⟩
      · obtain ⟨k, hk⟩ := he
        exact .inr (mem_queued.mpr ⟨k, by rwa [hqueue] at hk⟩)
    rw [hmax]
    rcases he' with rfl | he'
    · exact ⟨habove, le_max_right _ _⟩
    · obtain ⟨hdelivered, hpos⟩ := hwaits.held e (mem_queued.mp he')
      exact ⟨h.above e he', (hcounts.pts_le_last hdelivered hpos).trans (le_max_left _ _)⟩
  rcases updated_cases hgood hwaits.requesting hwaits.level u with
    ⟨hold, -, -⟩ | ⟨-, ⟨hpass, hupdated⟩ | ⟨hopen, -, hupdated⟩⟩
  · exact absurd habove (not_lt.mpr hold)
  · -- the gap is closed
    have hclosed : (w.counted u).last = (w.counted u).count := by
      rcases hpass with heq | hzero
      · exact heq
      · exact absurd hzero hpositive.ne'
    have hcurrent : (w.counted u).good = (w.counted u).last := by
      rw [hgood', if_pos (by rw [← hmax, ← hcount, hclosed]), hmax]
    have hwaiting : (w.counted u).waitingForSkipped = false →
        (w.counted u).queue.isEmpty = true := by
      intro hwait
      rw [hqueue]
      exact queued_eq_nil_iff.mp (h.waiting (waitingForSkipped_counted hwait))
    obtain ⟨happlied, hempty⟩ := perform_closed hupdated hwaiting
    have hframe := w.perform_frame (.updateAndApply u) (by
      simp only [Call.update, hupdated]
      exact (w.counted_frame u).2.2.2.2.1.trans hwaits.level)
    have hgood'' : (w.perform (.updateAndApply u)).2.current = (w.counted u).good := by
      have heq := hframe.1
      simpa only [Call.update, hupdated, current] using heq
    have hnil := queued_eq_nil_iff.mpr hempty
    rw [happlied]
    refine ⟨?_, ?_, fun _ => hnil, fun _ => hnil, ?_, ?_, ?_⟩
    · intro k e hk
      exact absurd ⟨k, hk⟩ (not_held_of_isEmpty hempty)
    · rwa [hnil, List.append_nil]
    · intro e he
      rw [hgood'', hcurrent]
      rcases List.mem_append.mp he with he | he
      · exact ((h.below e he).trans hcounts.good_le).trans (hmax ▸ le_max_left _ _)
      · exact (hmem e he).2
    · rw [hnil]
      simp
    · rw [List.pairwise_append]
      exact ⟨h.sorted, hsorted, fun a ha b hb => (h.below a ha).trans_lt (hmem b hb).1⟩
  · -- there is still a gap
    have hperform : w.perform (.updateAndApply u) = ([], (w.counted u).joined u) := by
      simp only [PtsWaiter.perform, updateAndApply, hupdated, joined]
    have hnumbers : ((w.counted u).joined u).current = w.current ∧
        ((w.counted u).joined u).last = (w.counted u).last ∧
        ((w.counted u).joined u).count = (w.counted u).count ∧
        ((w.counted u).joined u).waitingForSkipped = true := by
      have hgood'' : (w.counted u).good = w.good := by
        rw [hgood', if_neg (by rwa [← hmax, ← hcount])]
      have hwait := waiting_counted hopen
      unfold joined current
      split <;> exact ⟨hgood'', rfl, rfl, hwait⟩
    obtain ⟨h₁, h₂, h₃, h₄⟩ := hnumbers
    rw [hperform, List.append_nil]
    refine ⟨hkeyed, hshare, fun heq => ?_, fun hwait => ?_, ?_, ?_, h.sorted⟩
    · exact absurd (h₂.symm.trans (heq.trans h₃)) hopen
    · exact absurd (h₄.symm.trans hwait) (by decide)
    · rw [h₁]
      exact h.below
    · rw [h₁]
      exact fun e he => (hmem e he).1

/-! ## Every order -/

theorem fine_of_sharesOut (hshares : SharesOut base last us) {before after : List (Update α)}
    (hsplit : us = before ++ u :: after) (hwaits : Waits base before w) :
    (Call.updateAndApply u).Fine w before := by
  have hpositive : u.positive := hshares.positive u (by simp [hsplit])
  obtain ⟨pending, hcounts⟩ := hwaits.counts
  have hfresh := (hshares.fresh hsplit fun p h₁ h₂ => by
    obtain ⟨e, he, hpos, -, hp⟩ := hcounts.covered p h₁ h₂
    exact ⟨e, he, hpos, hp⟩).2
  exact ⟨hpositive.le, fun _ _ => hfresh, fun _ hzero => absurd hzero hpositive.ne'⟩

variable (hbase : 0 < base) (hshares : SharesOut base last us)
include hbase hshares

/-- After every part of the deliveries. -/
theorem progress_run {before after : List (Update α)} (hsplit : us = before ++ after) :
    Waits base before (run (before.map Call.updateAndApply) (initialised base)).2 ∧
      Progress before (run (before.map Call.updateAndApply) (initialised base)).1
        (run (before.map Call.updateAndApply) (initialised base)).2 := by
  induction before using List.reverseRecOn generalizing after with
  | nil => exact ⟨waits_initialised base, progress_initialised base⟩
  | append_singleton before u ih =>
    have hparts := hsplit
    rw [List.append_assoc, List.singleton_append] at hsplit
    obtain ⟨hwaits, hprogress⟩ := ih hsplit
    have hfine := fine_of_sharesOut hshares hsplit hwaits
    obtain ⟨pending, hcounts⟩ := hwaits.counts
    have habove := (hshares.fresh hsplit fun p h₁ h₂ => by
      obtain ⟨e, he, hpos, -, hp⟩ := hcounts.covered p h₁ h₂
      exact ⟨e, he, hpos, hp⟩).1
    have hnodup := hshares.nodup_pts
    rw [hparts, List.map_append] at hnodup
    rw [List.map_append, List.map_singleton, run_append]
    exact ⟨(hwaits.perform hbase hfine).1,
      hprogress.perform hwaits hbase (hshares.positive u (by simp [hsplit])) habove
        hnodup.of_append_left⟩

theorem careful_of_sharesOut : Careful base (us.map Call.updateAndApply) := by
  intro before call after hsplit
  obtain ⟨before, rest, rfl, rfl, hrest⟩ := List.map_eq_append_iff.mp hsplit
  obtain ⟨u, after, rfl, rfl, -⟩ := List.map_eq_cons_iff.mp hrest
  have hupdates : (before.map Call.updateAndApply).map Call.update = before := by
    rw [List.map_map]
    exact List.map_id before
  rw [hupdates]
  exact fine_of_sharesOut hshares rfl (progress_run hbase hshares rfl).1

/-- With all delivered there is no gap left. -/
theorem settled_run (hle : base ≤ last) :
    let w := (run (us.map Call.updateAndApply) (initialised base)).2
    w.last = w.count ∧ w.current = last := by
  intro w
  have hwaits : Waits base us w := (progress_run hbase hshares (List.append_nil us).symm).1
  obtain ⟨pending, hcounts⟩ := hwaits.counts
  have hupper : w.last ≤ last := by
    apply (careful_of_sharesOut hbase hshares).last_le hbase hle (List.append_nil _).symm
    intro call hcall
    obtain ⟨u, hu, rfl⟩ := List.mem_map.mp hcall
    exact (hshares.inside u hu).2
  have hsettled : w.last = w.count := by
    have hall : ∀ p, w.good < p → p ≤ w.last →
        ∃ i ∈ pending.map Update.interval, p ∈ i.positions := by
      intro p h₁ h₂
      obtain ⟨e, he, hpos, hp⟩ := hshares.covers p (hcounts.base_le.trans_lt h₁) (h₂.trans hupper)
      have hpts : p ≤ e.pts.toInt := (Stretch.mem_positions.mp hp).2
      exact ⟨e.interval, List.mem_map_of_mem (hcounts.all e he hpos (h₁.trans_le hpts)), hp⟩
    obtain ⟨hle', hin⟩ := hcounts.intervals
    have hsum := (sum_length_eq_iff hcounts.apart hle' hin hcounts.good_le).mpr hall
    have hcount := hcounts.sum
    omega
  have hcurrent : w.current = w.last := hcounts.settled hsettled
  refine ⟨hsettled, le_antisymm (hcurrent ▸ hupper) ?_⟩
  rcases hle.eq_or_lt with rfl | hlt
  · exact hcounts.base_le
  · obtain ⟨e, he, hpos, hp⟩ := hshares.covers last hlt le_rfl
    exact hcurrent ▸ (Stretch.mem_positions.mp hp).2.trans (hcounts.pts_le_last he hpos)

omit hbase hshares

/-- Whatever the order, in the end the waiter has come to the last state, every update was applied
once and the states only grow; and nothing is ever applied before the state it leads to. -/
theorem every_update_once (hinited : (initialised base : PtsWaiter α).inited = true)
    (hle : base ≤ last) (hshares : SharesOut base last us) (hperm : order.Perm us) :
    let (applied, w) := run (order.map Call.updateAndApply) (initialised base)
    w.current = last ∧
      applied.Perm (us.filter fun u => u.content.isSome) ∧
      applied.Pairwise (fun a b => a.pts.toInt < b.pts.toInt) ∧
      w.queue.isEmpty = true ∧
      ∀ before after, order = before ++ after →
        let (applied, w) := run (before.map Call.updateAndApply) (initialised base)
        ∀ e ∈ applied, e.interval.hi ≤ w.current := by
  have hbase : 0 < base := of_decide_eq_true hinited
  have horder := hshares.perm hperm
  obtain ⟨-, hprogress⟩ := progress_run hbase horder (List.append_nil order).symm
  obtain ⟨hsettled, hcurrent⟩ := settled_run hbase horder hle
  have hempty := hprogress.settled hsettled
  have hshare := hprogress.share
  rw [hempty, List.append_nil] at hshare
  refine ⟨hcurrent, hshare.trans (hperm.filter _), hprogress.sorted, queued_eq_nil_iff.mp hempty, ?_⟩
  intro before after hsplit e he
  exact (progress_run hbase horder hsplit).2.below e he

def sampleShares : List (Update Unit) := [sampleUpdate 11 1, sampleUpdate 13 2, sampleUpdate 14 1]

def sampleOrder : List (Update Unit) := [sampleUpdate 14 1, sampleUpdate 11 1, sampleUpdate 13 2]

theorem sharesOut_sampleShares : SharesOut 10 14 sampleShares where
  positive := by decide
  inside := by decide
  apart := by
    simp only [sampleShares, List.map_cons, List.map_nil, Apart]
    decide
  covers p h₁ h₂ := by
    interval_cases p <;> decide

/-- A sample of `every_update_once`. -/
theorem every_update_once_sampleOrder :
    let (applied, w) := run (sampleOrder.map Call.updateAndApply) (initialised 10)
    w.current = 14 ∧
      applied.Perm (sampleShares.filter fun u => u.content.isSome) ∧
      applied.Pairwise (fun a b => a.pts.toInt < b.pts.toInt) ∧
      w.queue.isEmpty = true ∧
      ∀ before after, sampleOrder = before ++ after →
        let (applied, w) := run (before.map Call.updateAndApply) (initialised 10)
        ∀ e ∈ applied, e.interval.hi ≤ w.current :=
  every_update_once rfl (by decide) sharesOut_sampleShares
    ((List.Perm.swap _ _ _).trans (List.Perm.cons _ (List.Perm.swap _ _ _)))

end PtsWaiter

end Bettergram.Data
