import Bettergram.Data.PtsWaiter

/-! # Runs of the waiter

While no position is counted twice, and no update without a count comes while
something waits for a gap, `current()` passes only covered positions and what
was put aside is applied only when all below it is there.
-/

namespace Bettergram.Data
open Foundation

variable {α : Type}

namespace PtsWaiter

variable {w : PtsWaiter α} {u e : Update α} {base : ℤ} {delivered : List (Update α)}

/-- An update that was put aside. -/
def Held (w : PtsWaiter α) (e : Update α) : Prop := ∃ k : UInt64, w.queue[k]? = some e

/-- The waiter after `check` has compared the sums. -/
def counted (u : Update α) (w : PtsWaiter α) : PtsWaiter α :=
  let w := { w with last := max w.last u.pts.toInt, count := w.count + u.count.toInt }
  if w.last = w.count then { w with good := w.last } else w.setWaitingForSkipped true

/-- What becomes of an update. -/
theorem updated_cases (hgood : 0 < w.good) (hrequesting : w.requesting = false)
    (hlevel : w.applySkippedLevel = 0) (u : Update α) :
    (u.pts.toInt ≤ w.good ∧ u.positive ∧ w.updated u = (false, w)) ∨
      (¬(u.pts.toInt ≤ w.good ∧ u.positive) ∧
        (((w.counted u).last = (w.counted u).count ∨ u.count.toInt = 0) ∧
            w.updated u = (true, w.counted u) ∨
          (w.counted u).last ≠ (w.counted u).count ∧ u.count.toInt ≠ 0 ∧
            w.updated u =
              (false, if u.content.isSome then (w.counted u).insert u else w.counted u))) := by
  have hready : ¬(w.requesting = true ∨ w.applySkippedLevel ≠ 0) := by simp [hrequesting, hlevel]
  have hinited : w.inited = true := by simpa [inited] using hgood
  by_cases hold : u.pts.toInt ≤ w.good ∧ 0 < u.count.toInt
  · refine .inl ⟨hold.1, hold.2, ?_⟩
    rw [updated, if_neg hready, if_pos hold]
  · refine .inr ⟨hold, ?_⟩
    unfold updated counted
    rw [if_neg hready, if_neg hold]
    simp only [check, hinited, Bool.not_true, Bool.false_eq_true, if_false]
    by_cases hsums : max w.last u.pts.toInt = w.count + u.count.toInt
    · simp [hsums]
    · by_cases hzero : u.count.toInt = 0
      · have hsums' : ¬max w.last u.pts.toInt = w.count := by simpa [hzero] using hsums
        simp [hsums', hzero, setWaitingForSkipped]
      · simp [hsums, hzero, setWaitingForSkipped]

theorem counted_frame (u : Update α) (w : PtsWaiter α) :
    (w.counted u).last = max w.last u.pts.toInt ∧ (w.counted u).count = w.count + u.count.toInt ∧
      (w.counted u).queue = w.queue ∧ (w.counted u).requesting = w.requesting ∧
      (w.counted u).applySkippedLevel = w.applySkippedLevel ∧
      (w.counted u).good = if max w.last u.pts.toInt = w.count + u.count.toInt
        then max w.last u.pts.toInt else w.good := by
  unfold counted
  dsimp only
  split <;> exact ⟨rfl, rfl, rfl, rfl, rfl, rfl⟩

/-- Applying what was put aside leaves the numbers alone. -/
theorem applySkippedUpdates_frame (w : PtsWaiter α) :
    w.applySkippedUpdates.2.good = w.good ∧ w.applySkippedUpdates.2.last = w.last ∧
      w.applySkippedUpdates.2.count = w.count ∧
      w.applySkippedUpdates.2.requesting = w.requesting ∧
      (w.applySkippedLevel = 0 → w.applySkippedUpdates.2.applySkippedLevel = 0) := by
  unfold applySkippedUpdates
  dsimp only
  split
  · exact ⟨rfl, rfl, rfl, rfl, fun h => h⟩
  · split <;> exact ⟨rfl, rfl, rfl, rfl, fun h => by first | exact h | rfl⟩

theorem held_of_applied (h : e ∈ w.applySkippedUpdates.1) : w.Held e := by
  unfold applySkippedUpdates at h
  dsimp only at h
  split at h
  · cases h
  · split at h
    · cases h
    · obtain ⟨⟨k, e⟩, hmem, rfl⟩ := List.mem_map.mp h
      exact ⟨k, Std.TreeMap.mem_toList_iff_getElem?_eq_some.mp hmem⟩

theorem Held.of_applySkippedUpdates (h : w.applySkippedUpdates.2.Held e) :
    w.waitingForSkipped = false ∧ w.Held e := by
  obtain ⟨k, hk⟩ := h
  unfold applySkippedUpdates at hk
  dsimp only at hk
  split at hk
  · next hwaiting => exact ⟨by simpa using hwaiting, k, hk⟩
  · split at hk
    · next hempty =>
      have hsome : k ∈ w.queue := Std.TreeMap.mem_iff_isSome_getElem?.mpr (by
        change w.queue[k]? = some e at hk
        simp [hk])
      have hnone : k ∉ w.queue := Std.TreeMap.not_mem_of_isEmpty hempty
      exact absurd hsome hnone
    · simp [clearSkippedUpdates] at hk

theorem Held.of_insert (h : (w.insert u).Held e) : e = u ∨ w.Held e := by
  obtain ⟨k, hk⟩ := h
  simp only [PtsWaiter.insert, Std.TreeMap.getElem?_insert] at hk
  split at hk
  · exact .inl (Option.some.inj hk).symm
  · exact .inr ⟨k, hk⟩

theorem not_held_of_isEmpty (h : w.queue.isEmpty = true) : ¬w.Held e := by
  rintro ⟨k, hk⟩
  have hsome : k ∈ w.queue := Std.TreeMap.mem_iff_isSome_getElem?.mpr (by simp [hk])
  exact Std.TreeMap.not_mem_of_isEmpty h hsome

/-! ## One call -/

/-- What holds of the waiter after what was delivered since `base`. -/
structure Waits (base : ℤ) (delivered : List (Update α)) (w : PtsWaiter α) : Prop where
  requesting : w.requesting = false
  level : w.applySkippedLevel = 0
  counts : ∃ pending, Counts base delivered pending w.good w.last w.count
  held : ∀ e, w.Held e → e ∈ delivered ∧ e.positive

/-- No position is counted twice, and nothing waits for a gap while an update without a count
comes. -/
structure Call.Fine (call : Call α) (w : PtsWaiter α) (delivered : List (Update α)) : Prop where
  count : 0 ≤ call.update.count.toInt
  fresh : call.update.positive → w.current < call.update.pts.toInt →
    Fresh delivered w.current call.update
  zero : (∃ update, call = .updateAndApply update) → call.update.count.toInt = 0 →
    w.queue.isEmpty = true ∨ w.last = w.count

/-- The numbers and the flags after a call are those that `updated` leaves; the updates it applies
were held or are its own; and what is held afterwards was held or has just been put aside. -/
theorem perform_frame (call : Call α) (w : PtsWaiter α)
    (hlevel : (w.updated call.update).2.applySkippedLevel = 0) :
    let w₁ := (w.updated call.update).2
    let w' := (w.perform call).2
    w'.good = w₁.good ∧ w'.last = w₁.last ∧ w'.count = w₁.count ∧ w'.requesting = w₁.requesting ∧
      w'.applySkippedLevel = 0 ∧
      (∀ e ∈ (w.perform call).1, (w.updated call.update).1 = true ∧
        (∃ update, call = .updateAndApply update) ∧ (e = call.update ∨ w₁.Held e)) ∧
      (∀ e, w'.Held e → w₁.Held e) := by
  intro w₁ w'
  cases call with
  | updated update => exact ⟨rfl, rfl, rfl, rfl, hlevel, by simp [perform], fun _ h => h⟩
  | updateAndApply update =>
    have hw₁ : w₁ = (w.updated update).2 := rfl
    have hw' : w' = (w.updateAndApply update).2.2 := rfl
    have happlied : (w.perform (.updateAndApply update)).1 = (w.updateAndApply update).2.1 := rfl
    have hlevel₁ : w₁.applySkippedLevel = 0 := hlevel
    have hupdate : (Call.updateAndApply update).update = update := rfl
    rw [happlied, hupdate]
    clear_value w₁ w'
    unfold updateAndApply at hw' ⊢
    rcases hresult : w.updated update with ⟨_ | _, w₂⟩
    · rw [hresult] at hw₁ hw'
      subst hw₁ hw'
      exact ⟨rfl, rfl, rfl, rfl, hlevel₁, by simp, fun _ h => h⟩
    · rw [hresult] at hw₁ hw'
      subst hw₁
      dsimp only at hw' ⊢
      cases hcontent : update.content with
      | none =>
        rw [hcontent] at hw'
        subst hw'
        obtain ⟨h₁, h₂, h₃, h₄, h₅⟩ := w₁.applySkippedUpdates_frame
        exact ⟨h₁, h₂, h₃, h₄, h₅ hlevel₁,
          fun e he => ⟨rfl, ⟨update, rfl⟩, .inr (held_of_applied he)⟩,
          fun e he => he.of_applySkippedUpdates.2⟩
      | some content =>
        rw [hcontent] at hw'
        dsimp only at hw' ⊢
        by_cases hdirect : (!w₁.waitingForSkipped) = true ∨ w₁.queue.isEmpty = true
        · rw [if_pos hdirect] at hw' ⊢
          subst hw'
          exact ⟨rfl, rfl, rfl, rfl, hlevel₁,
            fun e he => ⟨rfl, ⟨update, rfl⟩, .inl (by simpa using he)⟩, fun _ h => h⟩
        · rw [if_neg hdirect] at hw' ⊢
          subst hw'
          obtain ⟨h₁, h₂, h₃, h₄, h₅⟩ := (w₁.insert update).applySkippedUpdates_frame
          refine ⟨h₁, h₂, h₃, h₄, h₅ hlevel₁,
            fun e he => ⟨rfl, ⟨update, rfl⟩, (held_of_applied he).of_insert⟩, fun e he => ?_⟩
          have hwaiting : w₁.waitingForSkipped = false := he.of_applySkippedUpdates.1
          exact absurd (.inl (by simp [hwaiting])) hdirect

/-- What a call does to the waiter, and what it may apply. -/
theorem Waits.perform (h : Waits base delivered w) (hbase : 0 < base) {call : Call α}
    (hfine : call.Fine w delivered) :
    Waits base (delivered ++ [call.update]) (w.perform call).2 ∧
      (∀ p, w.current < p → p ≤ (w.perform call).2.current →
        ∃ e ∈ delivered ++ [call.update], e.positive ∧
          e.pts.toInt ≤ (w.perform call).2.current ∧ p ∈ e.interval.positions) ∧
      ∀ e ∈ (w.perform call).1, w.Held e → ∀ p, base < p → p ≤ e.interval.lo →
        Covers (delivered ++ [call.update]) p := by
  set u := call.update with hu
  obtain ⟨pending, hcounts⟩ := h.counts
  have hgood : 0 < w.good := hbase.trans_le hcounts.base_le
  obtain ⟨hlast, hcount, hqueue, hrequesting, hlevel, hgood'⟩ := w.counted_frame u
  have hheldCounted : ∀ e, (w.counted u).Held e → w.Held e :=
    fun e ⟨k, hk⟩ => ⟨k, by rwa [hqueue] at hk⟩
  -- nothing is held that is not below `last`
  have hbelow : ∀ e, w.Held e → e.pts.toInt ≤ w.last := fun e he =>
    hcounts.pts_le_last (h.held e he).1 (h.held e he).2
  have hlo : ∀ {e : Update α}, e.positive → e.interval.lo ≤ e.pts.toInt := by
    intro e hpos
    simp only [Update.interval, Update.positive] at hpos ⊢
    omega
  rcases updated_cases hgood h.requesting h.level u with ⟨hold, hpos, hresult⟩ | ⟨hnew, hresult⟩
  · -- the update is known already
    have hframe := w.perform_frame call (by rw [← hu, hresult]; exact h.level)
    rw [← hu, hresult] at hframe
    obtain ⟨h₁, h₂, h₃, h₄, h₅, happlied, hheld⟩ := hframe
    have hdrop := hcounts.drop (u := u) fun _ => hold
    refine ⟨⟨h₄.trans h.requesting, h₅, ⟨pending, ?_⟩, fun e he => ?_⟩, fun p hp₁ hp₂ => ?_,
      fun e he _ => ?_⟩
    · rwa [h₁, h₂, h₃]
    · obtain ⟨hmem, hepos⟩ := h.held e (hheld e he)
      exact ⟨by simp [hmem], hepos⟩
    · simp only [current, h₁] at hp₁ hp₂
      omega
    · exact absurd (happlied e he).1 (by simp)
  · have hcheck := hcounts.check (u := u) (by
      by_cases hzero : u.count.toInt = 0
      · exact .inr hzero
      · have hpos : u.positive := lt_of_le_of_ne hfine.count (Ne.symm hzero)
        have habove : w.current < u.pts.toInt := by
          by_contra hle
          exact hnew ⟨not_lt.mp hle, hpos⟩
        exact .inl ⟨hpos, hfine.fresh hpos habove⟩)
    obtain ⟨hclosed, hopen⟩ := hcheck
    rw [← hlast, ← hcount] at hclosed hopen
    have hcounted : ∃ pending', Counts base (delivered ++ [u]) pending' (w.counted u).good
        (w.counted u).last (w.counted u).count := by
      by_cases heq : (w.counted u).last = (w.counted u).count
      · have hg : (w.counted u).good = (w.counted u).last := by
          rw [hgood', if_pos (by rw [← hlast, ← hcount, heq]), hlast]
        rw [hg]
        exact ⟨[], hclosed heq⟩
      · have hg : (w.counted u).good = w.good := by
          rw [hgood', if_neg (by rwa [← hlast, ← hcount])]
        rw [hg]
        exact hopen heq
    have hcurrent : ∀ p, w.current < p → p ≤ (w.counted u).good →
        ∃ e ∈ delivered ++ [u], e.positive ∧ e.pts.toInt ≤ (w.counted u).good ∧
          p ∈ e.interval.positions := by
      intro p hp₁ hp₂
      obtain ⟨pending', hcounts'⟩ := hcounted
      exact hcounts'.covered p (hcounts.base_le.trans_lt hp₁) hp₂
    rcases hresult with ⟨hpass, hresult⟩ | ⟨hne, hcountne, hresult⟩
    · have hframe := w.perform_frame call (by rw [← hu, hresult]; exact hlevel.trans h.level)
      rw [← hu, hresult] at hframe
      obtain ⟨h₁, h₂, h₃, h₄, h₅, happlied, hheld⟩ := hframe
      refine ⟨⟨h₄.trans (hrequesting.trans h.requesting), h₅, ?_, fun e he => ?_⟩, ?_, ?_⟩
      · rwa [h₁, h₂, h₃]
      · obtain ⟨hmem, hepos⟩ := h.held e (hheldCounted e (hheld e he))
        exact ⟨by simp [hmem], hepos⟩
      · simp only [current, h₁]
        exact hcurrent
      · intro e he hold p hp₁ hp₂
        have hp : p ≤ e.pts.toInt := hp₂.trans (hlo (h.held e hold).2)
        obtain ⟨pending', hcounts'⟩ := hcounted
        by_cases heq : (w.counted u).last = (w.counted u).count
        · -- the gap is closed, so everything up to `last` is there
          have hle : p ≤ (w.counted u).good := by
            rw [hcounts'.settled heq, hlast]
            exact (hp.trans (hbelow e hold)).trans (le_max_left _ _)
          obtain ⟨c, hc, hcpos, -, hmem⟩ := hcounts'.covered p hp₁ hle
          exact ⟨c, hc, hcpos, hmem⟩
        · -- an update without a count: there was no gap before it
          have hzero := hpass.resolve_left heq
          have hcall := (happlied e he).2.1
          rcases hfine.zero hcall hzero with hempty | hsettled
          · exact absurd hold (not_held_of_isEmpty hempty)
          · have hle : p ≤ w.good := by
              rw [hcounts.settled hsettled]
              exact hp.trans (hbelow e hold)
            obtain ⟨c, hc, hcpos, -, hmem⟩ := hcounts.covered p hp₁ hle
            exact Covers.append ⟨c, hc, hcpos, hmem⟩ [u]
    · have hpos : u.positive := lt_of_le_of_ne hfine.count (Ne.symm hcountne)
      set aside := if u.content.isSome = true then (w.counted u).insert u else w.counted u with haside
      have hnumbers : aside.good = (w.counted u).good ∧ aside.last = (w.counted u).last ∧
          aside.count = (w.counted u).count ∧ aside.requesting = (w.counted u).requesting ∧
          aside.applySkippedLevel = (w.counted u).applySkippedLevel := by
        rw [haside]
        split <;> exact ⟨rfl, rfl, rfl, rfl, rfl⟩
      obtain ⟨n₁, n₂, n₃, n₄, n₅⟩ := hnumbers
      have hframe := w.perform_frame call (by rw [← hu, hresult]; exact n₅.trans (hlevel.trans h.level))
      rw [← hu, hresult] at hframe
      obtain ⟨h₁, h₂, h₃, h₄, h₅, happlied, hheld⟩ := hframe
      refine ⟨⟨h₄.trans (n₄.trans (hrequesting.trans h.requesting)), h₅, ?_, fun e he => ?_⟩, ?_, ?_⟩
      · rw [h₁, h₂, h₃, n₁, n₂, n₃]
        exact hcounted
      · have hcase : e = u ∨ w.Held e := by
          have he' := hheld e he
          rw [haside] at he'
          split at he'
          · exact he'.of_insert.imp_right (hheldCounted e)
          · exact .inr (hheldCounted e he')
        rcases hcase with rfl | hold
        · exact ⟨by simp, hpos⟩
        · obtain ⟨hmem, hepos⟩ := h.held e hold
          exact ⟨by simp [hmem], hepos⟩
      · simp only [current, h₁, n₁]
        exact hcurrent
      · intro e he
        exact absurd (happlied e he).1 (by simp)

/-! ## Runs -/

theorem run_append (before : List (Call α)) (call : Call α) (w : PtsWaiter α) :
    run (before ++ [call]) w =
      ((run before w).1 ++ ((run before w).2.perform call).1, ((run before w).2.perform call).2) := by
  rw [run, List.foldl_append]
  rfl

/-- Every call of a run is fine when it comes. -/
def Careful (base : ℤ) (calls : List (Call α)) : Prop :=
  ∀ before call after, calls = before ++ call :: after →
    call.Fine (run before (initialised base)).2 (before.map Call.update)

theorem waits_initialised (base : ℤ) : Waits base [] (initialised base : PtsWaiter α) where
  requesting := rfl
  level := rfl
  counts := ⟨[], .initial base⟩
  held e := by
    rintro ⟨k, hk⟩
    simp [initialised, init, clearSkippedUpdates] at hk

theorem Careful.waits (hbase : 0 < base) {calls : List (Call α)} (h : Careful base calls)
    {before after : List (Call α)} (hsplit : calls = before ++ after) :
    Waits base (before.map Call.update) (run before (initialised base)).2 := by
  induction before using List.reverseRecOn generalizing after with
  | nil => exact waits_initialised base
  | append_singleton before call ih =>
    rw [List.append_assoc, List.singleton_append] at hsplit
    rw [run_append, List.map_append, List.map_singleton]
    exact ((ih hsplit).perform hbase (h before call after hsplit)).1

theorem Waits.last_perform_le (h : Waits base delivered w) (hbase : 0 < base) (call : Call α) :
    (w.perform call).2.last ≤ max w.last call.update.pts.toInt := by
  obtain ⟨pending, hcounts⟩ := h.counts
  have hgood : 0 < w.good := hbase.trans_le hcounts.base_le
  obtain ⟨hlast, -, -, -, hlevel, -⟩ := w.counted_frame call.update
  have hupdated : (w.updated call.update).2.applySkippedLevel = 0 ∧
      (w.updated call.update).2.last ≤ max w.last call.update.pts.toInt := by
    rcases updated_cases hgood h.requesting h.level call.update with
      ⟨-, -, hresult⟩ | ⟨-, ⟨-, hresult⟩ | ⟨-, -, hresult⟩⟩ <;> rw [hresult]
    · exact ⟨h.level, le_max_left _ _⟩
    · exact ⟨hlevel.trans h.level, hlast.le⟩
    · dsimp only
      split <;> exact ⟨hlevel.trans h.level, hlast.le⟩
  rw [(w.perform_frame call hupdated.1).2.1]
  exact hupdated.2

theorem Careful.last_le (hbase : 0 < base) {bound : ℤ} (hbound : base ≤ bound)
    {calls : List (Call α)} (h : Careful base calls) {before after : List (Call α)}
    (hsplit : calls = before ++ after) (hpts : ∀ call ∈ before, call.update.pts.toInt ≤ bound) :
    (run before (initialised base)).2.last ≤ bound := by
  induction before using List.reverseRecOn generalizing after with
  | nil => exact hbound
  | append_singleton before call ih =>
    rw [List.append_assoc, List.singleton_append] at hsplit
    rw [run_append]
    have hlast := ih hsplit fun c hc => hpts c (by simp [hc])
    exact ((h.waits hbase hsplit).last_perform_le hbase call).trans
      (max_le hlast (hpts call (by simp)))

/-- The sums of a careful run are those of machine words. -/
theorem Careful.int32 (hbase : 0 < base) (hword : base ≤ Int32.maxValue.toInt)
    {calls : List (Call α)} (h : Careful base calls) {before after : List (Call α)}
    (hsplit : calls = before ++ after) :
    let w := (run before (initialised base)).2
    0 < w.good ∧ w.good ≤ w.count ∧ w.count ≤ w.last ∧ w.last ≤ Int32.maxValue.toInt := by
  intro w
  obtain ⟨pending, hcounts⟩ := (h.waits hbase hsplit).counts
  have hlast := h.last_le hbase hword hsplit fun call _ => call.update.pts.toInt_le
  exact ⟨hbase.trans_le hcounts.base_le, hcounts.le_count, hcounts.count_le, hlast⟩

/-- In a careful run `current()` passes only what was delivered, and an update that was put aside
is applied only when all positions below it have come. -/
theorem never_jumps (hbase : 0 < base) {calls before after : List (Call α)} {call : Call α}
    (h : Careful base calls) (hsplit : calls = before ++ call :: after) :
    let w := (run before (initialised base)).2
    let w' := (w.perform call).2
    let delivered := (before ++ [call]).map Call.update
    (∀ p, w.current < p → p ≤ w'.current → ∃ e ∈ delivered, e.positive ∧
        e.pts.toInt ≤ w'.current ∧ p ∈ e.interval.positions) ∧
      ∀ e ∈ (w.perform call).1, w.Held e → ∀ p, base < p → p ≤ e.interval.lo →
        Covers delivered p := by
  intro w w' delivered
  have hperform := (h.waits hbase hsplit).perform hbase (h before call after hsplit)
  have hdelivered : delivered = before.map Call.update ++ [call.update] := by
    simp [delivered]
  rw [hdelivered]
  exact ⟨hperform.2.1, hperform.2.2⟩

/-! ## Jumping over a gap -/

def sampleUpdate (pts count : Int32) : Update Unit where
  pts := pts
  count := count
  content := some ()

/-- A gap that is closed, with a known update in between. -/
def sampleCalls : List (Call Unit) :=
  [.updateAndApply (sampleUpdate 12 1), .updateAndApply (sampleUpdate 10 1),
    .updateAndApply (sampleUpdate 11 1)]

/-- The same update twice while the one before it is missing. -/
def repeatedCalls : List (Call Unit) :=
  [.updateAndApply (sampleUpdate 12 1), .updateAndApply (sampleUpdate 12 1)]

theorem mem_splits {β : Type} {l before after : List β} {x : β} (h : l = before ++ x :: after) :
    ∃ n : Fin l.length, before = l.take n ∧ l[n] = x := by
  subst h
  exact ⟨⟨before.length, by simp⟩, by simp, by simp⟩

instance (u : Update α) : Decidable u.positive := inferInstanceAs (Decidable (_ < _))

instance (delivered : List (Update α)) (good : ℤ) (u : Update α) :
    Decidable (Fresh delivered good u) := inferInstanceAs (Decidable (_ ∧ ∀ e ∈ delivered, _))

instance (delivered : List (Update α)) (p : ℤ) : Decidable (Covers delivered p) :=
  inferInstanceAs (Decidable (∃ u ∈ delivered, _))

set_option maxRecDepth 10000 in
theorem careful_sampleCalls : Careful 10 sampleCalls := by
  intro before call after hsplit
  obtain ⟨n, rfl, rfl⟩ := mem_splits hsplit
  have hfine : ∀ n : Fin sampleCalls.length,
      let w := (run (sampleCalls.take n) (initialised 10)).2
      0 < sampleCalls[n].update.count.toInt ∧
        (w.current < sampleCalls[n].update.pts.toInt →
          Fresh ((sampleCalls.take n).map Call.update) w.current sampleCalls[n].update) := by
    decide
  obtain ⟨hcount, hfresh⟩ := hfine n
  exact ⟨hcount.le, fun _ => hfresh, fun _ hzero => absurd hzero hcount.ne'⟩

/-- A sample of `never_jumps`: the last update closes the gap and lets the queued one through. -/
theorem never_jumps_sampleCalls :
    let w := (run (sampleCalls.take 2) (initialised 10)).2
    let w' := (w.perform (.updateAndApply (sampleUpdate 11 1))).2
    let delivered := (sampleCalls.take 2 ++ [Call.updateAndApply (sampleUpdate 11 1)]).map Call.update
    (∀ p, w.current < p → p ≤ w'.current → ∃ e ∈ delivered, e.positive ∧
        e.pts.toInt ≤ w'.current ∧ p ∈ e.interval.positions) ∧
      ∀ e ∈ (w.perform (.updateAndApply (sampleUpdate 11 1))).1, w.Held e →
        ∀ p, 10 < p → p ≤ e.interval.lo → Covers delivered p :=
  have hsplit : sampleCalls = sampleCalls.take 2 ++ [.updateAndApply (sampleUpdate 11 1)] := rfl
  never_jumps (by decide) careful_sampleCalls hsplit

set_option maxRecDepth 10000 in
/-- The repeated update is counted twice, so `current()` passes a position that nothing brought. -/
theorem repeatedCalls_jump :
    let before := (run (repeatedCalls.take 1) (initialised 10)).2
    let after := (run repeatedCalls (initialised 10)).2
    ¬ ∀ p, before.current < p → p ≤ after.current → Covers (repeatedCalls.map Call.update) p := by
  intro before after hcovers
  have hcurrent : before.current < 11 ∧ 11 ≤ after.current := by decide
  have hmissing : ¬ Covers (repeatedCalls.map Call.update) 11 := by decide
  exact hmissing (hcovers 11 hcurrent.1 hcurrent.2)

end PtsWaiter

end Bettergram.Data
