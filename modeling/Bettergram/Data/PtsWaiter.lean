import Bettergram.Foundation.Stretches

/-! # The waiter for skipped updates

Every update moves the state of a box from `pts - count` to `pts`. The waiter
keeps the last `pts` without a gap below it, the largest one seen and the sum of
the counts, and puts aside the updates that come too early.
-/

namespace Bettergram.Data
open Foundation

variable {α : Type}

/-- An `MTPUpdate` or `MTPUpdates` with its state; the short form brings only the state. -/
structure Update (α : Type) where
  pts : Int32
  count : Int32
  content : Option α

/-- The two queues by key are one; the timers that are started are not kept. -/
structure PtsWaiter (α : Type) where
  queue : Std.TreeMap UInt64 (Update α) := ∅
  good : ℤ := 0
  last : ℤ := 0
  count : ℤ := 0
  applySkippedLevel : ℕ := 0
  requesting : Bool := false
  waitingForSkipped : Bool := false
  skippedKey : UInt32 := 0

namespace PtsWaiter

def clearSkippedUpdates (w : PtsWaiter α) : PtsWaiter α :=
  { w with queue := ∅, applySkippedLevel := 0 }

def init (pts : ℤ) (w : PtsWaiter α) : PtsWaiter α :=
  { w with good := pts, last := pts, count := pts }.clearSkippedUpdates

def inited (w : PtsWaiter α) : Bool := 0 < w.good

def current (w : PtsWaiter α) : ℤ := w.good

def setWaitingForSkipped (waiting : Bool) (w : PtsWaiter α) : PtsWaiter α :=
  { w with waitingForSkipped := waiting }

/-- The upper half of a key is the `pts`. -/
def ptsKey (pts : Int32) (key : UInt32) : UInt64 := pts.toUInt32.toUInt64 <<< 32 ||| key.toUInt64

/-- Puts an update aside, under its key. -/
def insert (update : Update α) (w : PtsWaiter α) : PtsWaiter α :=
  let key := w.skippedKey + 1
  { w with skippedKey := key, queue := w.queue.insert (ptsKey update.pts key) update }

/-- Whether the update may be applied now. -/
def check (pts count : ℤ) (w : PtsWaiter α) : Bool × PtsWaiter α :=
  if !w.inited then (true, w.init pts)
  else
    let w := { w with last := max w.last pts, count := w.count + count }
    if w.last = w.count then (true, { w with good := w.last })
    else (count = 0, w.setWaitingForSkipped true)

/-- The short form has nothing to put aside. -/
def updated (update : Update α) (w : PtsWaiter α) : Bool × PtsWaiter α :=
  if w.requesting ∨ w.applySkippedLevel ≠ 0 then (true, w)
  else if update.pts.toInt ≤ w.good ∧ 0 < update.count.toInt then (false, w)
  else
    match w.check update.pts.toInt update.count.toInt with
    | (true, w) => (true, w)
    | (false, w) => (false, if update.content.isSome then w.insert update else w)

/-- The updates that are applied; while they are, `updated` changes nothing. -/
def applySkippedUpdates (w : PtsWaiter α) : List (Update α) × PtsWaiter α :=
  if !w.waitingForSkipped then ([], w)
  else
    let w := w.setWaitingForSkipped false
    if w.queue.isEmpty then ([], w)
    else (w.queue.toList.map Prod.snd, w.clearSkippedUpdates)

def updateAndApply (update : Update α) (w : PtsWaiter α) : Bool × List (Update α) × PtsWaiter α :=
  match w.updated update with
  | (false, w) => (false, [], w)
  | (true, w) =>
    match update.content with
    | none => (true, w.applySkippedUpdates)
    | some _ =>
      if !w.waitingForSkipped ∨ w.queue.isEmpty then (true, [update], w)
      else (true, (w.insert update).applySkippedUpdates)

/-- How an update is handed to the waiter. -/
inductive Call (α : Type) where
  | updated (update : Update α)
  | updateAndApply (update : Update α)

def Call.update : Call α → Update α
  | .updated update => update
  | .updateAndApply update => update

/-- The updates applied in a call, and the waiter. -/
def perform (call : Call α) (w : PtsWaiter α) : List (Update α) × PtsWaiter α :=
  match call with
  | .updated update => ([], (w.updated update).2)
  | .updateAndApply update => (w.updateAndApply update).2

/-- All that was applied, and the waiter. -/
def run (calls : List (Call α)) (w : PtsWaiter α) : List (Update α) × PtsWaiter α :=
  calls.foldl (fun (applied, w) call => (applied ++ (w.perform call).1, (w.perform call).2)) ([], w)

/-- A new waiter that is told where the box stands. -/
def initialised (base : ℤ) : PtsWaiter α := ({} : PtsWaiter α).init base

end PtsWaiter

end Bettergram.Data

/-! ## Gaps below the current state

The waiter compares the sum of the counts with the largest `pts`. As long as no
position is counted twice the two agree only when no position is left out.
-/

namespace Bettergram.Data
open Foundation

variable {α : Type}

namespace Update

/-- The positions that an update brings. -/
def interval (u : Update α) : Stretch where
  lo := u.pts.toInt - u.count.toInt
  hi := u.pts.toInt

def positive (u : Update α) : Prop := 0 < u.count.toInt

theorem length_interval (u : Update α) : u.interval.length = u.count.toInt := by
  simp only [interval, Stretch.length]
  omega

end Update

/-- Some delivered update brings the position. -/
def Covers (delivered : List (Update α)) (p : ℤ) : Prop :=
  ∃ u ∈ delivered, u.positive ∧ p ∈ u.interval.positions

theorem Covers.append {delivered : List (Update α)} {p : ℤ} (h : Covers delivered p)
    (more : List (Update α)) : Covers (delivered ++ more) p := by
  obtain ⟨u, hu, hpos, hp⟩ := h
  exact ⟨u, by simp [hu], hpos, hp⟩

/-- The numbers of the waiter, after what was delivered from `base` on. The pending updates are
those above `good`. -/
structure Counts (base : ℤ) (delivered pending : List (Update α)) (good last count : ℤ) : Prop where
  base_le : base ≤ good
  good_le : good ≤ last
  settled : last = count → good = last
  covered : ∀ p, base < p → p ≤ good → ∃ u ∈ delivered, u.positive ∧ u.pts.toInt ≤ good ∧
    p ∈ u.interval.positions
  apart : Apart (pending.map Update.interval)
  inside : ∀ u ∈ pending, u.positive ∧ good ≤ u.interval.lo ∧ u.interval.hi ≤ last
  sum : count = good + ((pending.map Update.interval).map Stretch.length).sum
  subset : ∀ u ∈ pending, u ∈ delivered
  all : ∀ u ∈ delivered, u.positive → good < u.pts.toInt → u ∈ pending

/-- An update above `good` that brings nothing that is there or was counted. -/
def Fresh (delivered : List (Update α)) (good : ℤ) (u : Update α) : Prop :=
  good ≤ u.interval.lo ∧ ∀ e ∈ delivered, e.positive → good < e.pts.toInt →
    Disjoint e.interval.positions u.interval.positions

variable {base good last count : ℤ} {delivered pending : List (Update α)}

theorem bounds_of_inside {us : List (Update α)}
    (hinside : ∀ e ∈ us, e.positive ∧ good ≤ e.interval.lo ∧ e.interval.hi ≤ last) :
    (∀ i ∈ us.map Update.interval, i.lo ≤ i.hi) ∧
      ∀ i ∈ us.map Update.interval, good ≤ i.lo ∧ i.hi ≤ last := by
  constructor
  · intro i hi
    obtain ⟨e, he, rfl⟩ := List.mem_map.mp hi
    have hpos := (hinside e he).1
    simp only [Update.interval, Update.positive] at hpos ⊢
    omega
  · intro i hi
    obtain ⟨e, he, rfl⟩ := List.mem_map.mp hi
    exact (hinside e he).2

namespace Counts

theorem initial (base : ℤ) : Counts base ([] : List (Update α)) [] base base base where
  base_le := le_refl _
  good_le := le_refl _
  settled _ := rfl
  covered p h₁ h₂ := by omega
  apart := List.Pairwise.nil
  inside := by simp
  sum := by simp
  subset := by simp
  all := by simp

theorem pts_le_last (h : Counts base delivered pending good last count) {u : Update α}
    (hu : u ∈ delivered) (hpos : u.positive) : u.pts.toInt ≤ last := by
  by_cases habove : good < u.pts.toInt
  · exact (h.inside u (h.all u hu hpos habove)).2.2
  · exact (not_lt.mp habove).trans h.good_le

theorem intervals (h : Counts base delivered pending good last count) :
    (∀ i ∈ pending.map Update.interval, i.lo ≤ i.hi) ∧
      ∀ i ∈ pending.map Update.interval, good ≤ i.lo ∧ i.hi ≤ last :=
  bounds_of_inside h.inside

/-- So the sum of the counts stays below what the largest `pts` allows. -/
theorem count_le (h : Counts base delivered pending good last count) : count ≤ last := by
  obtain ⟨hle, hin⟩ := h.intervals
  have hsum := sum_length_le h.apart hle hin h.good_le
  have hcount := h.sum
  omega

theorem le_count (h : Counts base delivered pending good last count) : good ≤ count := by
  have hcard := card_covered h.apart h.intervals.1
  have hcount := h.sum
  omega

/-- An update that is not counted. -/
theorem drop (h : Counts base delivered pending good last count) {u : Update α}
    (hu : u.positive → u.pts.toInt ≤ good) :
    Counts base (delivered ++ [u]) pending good last count where
  base_le := h.base_le
  good_le := h.good_le
  settled := h.settled
  covered p h₁ h₂ := by
    obtain ⟨e, he, hrest⟩ := h.covered p h₁ h₂
    exact ⟨e, by simp [he], hrest⟩
  apart := h.apart
  inside := h.inside
  sum := h.sum
  subset e he := by simp [h.subset e he]
  all e he hpos habove := by
    rcases List.mem_append.mp he with he | he
    · exact h.all e he hpos habove
    · rw [List.mem_singleton.mp he] at hpos habove
      exact absurd (hu hpos) (not_le.mpr habove)

/-- A fresh update becomes pending; only then `last` and `count` are compared. -/
theorem add (h : Counts base delivered pending good last count) {u : Update α} (hpos : u.positive)
    (hfresh : Fresh delivered good u) :
    let counted := u :: pending
    let last' := max last u.pts.toInt
    Apart (counted.map Update.interval) ∧
      (∀ e ∈ counted, e.positive ∧ good ≤ e.interval.lo ∧ e.interval.hi ≤ last') ∧
      count + u.count.toInt = good + ((counted.map Update.interval).map Stretch.length).sum := by
  intro counted last'
  refine ⟨?_, ?_, ?_⟩
  · rw [Apart, List.map_cons, List.pairwise_cons]
    refine ⟨fun i hi => ?_, h.apart⟩
    obtain ⟨e, he, rfl⟩ := List.mem_map.mp hi
    obtain ⟨hepos, hlo, -⟩ := h.inside e he
    have habove : good < e.pts.toInt := by
      simp only [Update.interval, Update.positive] at hlo hepos
      omega
    exact (hfresh.2 e (h.subset e he) hepos habove).symm
  · intro e he
    rcases List.mem_cons.mp he with rfl | he
    · exact ⟨hpos, hfresh.1, le_max_right _ _⟩
    · obtain ⟨hepos, hlo, hhi⟩ := h.inside e he
      exact ⟨hepos, hlo, hhi.trans (le_max_left _ _)⟩
  · rw [List.map_cons, List.map_cons, List.sum_cons, Update.length_interval, h.sum]
    omega

/-- Once `last` and `count` agree nothing is missing up to `last`. -/
theorem close {counted : List (Update α)} {last' : ℤ} (hlast : good ≤ last')
    (hapart : Apart (counted.map Update.interval))
    (hinside : ∀ e ∈ counted, e.positive ∧ good ≤ e.interval.lo ∧ e.interval.hi ≤ last')
    (hsum : last' = good + ((counted.map Update.interval).map Stretch.length).sum) {p : ℤ}
    (h₁ : good < p) (h₂ : p ≤ last') :
    ∃ e ∈ counted, e.positive ∧ e.pts.toInt ≤ last' ∧ p ∈ e.interval.positions := by
  obtain ⟨hle, hin⟩ := bounds_of_inside hinside
  have hall := (sum_length_eq_iff hapart hle hin hlast).mp (by omega)
  obtain ⟨i, hi, hmem⟩ := hall p h₁ h₂
  obtain ⟨e, he, rfl⟩ := List.mem_map.mp hi
  exact ⟨e, he, (hinside e he).1, (hinside e he).2.2, hmem⟩

/-- What `check` does to the numbers, for an update that is counted or counts nothing. -/
theorem check (h : Counts base delivered pending good last count) {u : Update α}
    (hu : (u.positive ∧ Fresh delivered good u) ∨ u.count.toInt = 0) :
    let last' := max last u.pts.toInt
    let count' := count + u.count.toInt
    (last' = count' → Counts base (delivered ++ [u]) [] last' last' count') ∧
      (last' ≠ count' → ∃ pending', Counts base (delivered ++ [u]) pending' good last' count') := by
  intro last' count'
  have hlast : good ≤ last' := h.good_le.trans (le_max_left _ _)
  have hbound : ∀ e ∈ delivered ++ [u], e.positive → e.pts.toInt ≤ last' := by
    intro e he hpos
    rcases List.mem_append.mp he with he | he
    · exact (h.pts_le_last he hpos).trans (le_max_left _ _)
    · rw [List.mem_singleton.mp he]
      exact le_max_right _ _
  -- the pending updates with the new one, if that counts
  obtain ⟨counted, hsublist, hcounted, hapart, hinside, hsum, hsubset⟩ :
      ∃ counted : List (Update α), (∀ e ∈ pending, e ∈ counted) ∧ (u.positive → u ∈ counted) ∧
        Apart (counted.map Update.interval) ∧
        (∀ e ∈ counted, e.positive ∧ good ≤ e.interval.lo ∧ e.interval.hi ≤ last') ∧
        count' = good + ((counted.map Update.interval).map Stretch.length).sum ∧
        ∀ e ∈ counted, e ∈ delivered ++ [u] := by
    rcases hu with ⟨hpos, hfresh⟩ | hzero
    · obtain ⟨hapart, hinside, hsum⟩ := h.add hpos hfresh
      refine ⟨u :: pending, fun e he => by simp [he], fun _ => by simp, hapart, hinside, hsum, ?_⟩
      intro e he
      rcases List.mem_cons.mp he with rfl | he
      · simp
      · simp [h.subset e he]
    · refine ⟨pending, fun _ he => he, fun hpos => ?_, h.apart, fun e he => ?_, ?_, fun e he => ?_⟩
      · simp [Update.positive, hzero] at hpos
      · obtain ⟨hpos, hlo, hhi⟩ := h.inside e he
        exact ⟨hpos, hlo, hhi.trans (le_max_left _ _)⟩
      · have hsum := h.sum
        omega
      · simp [h.subset e he]
  refine ⟨fun heq => ?_, fun hne => ⟨counted, ?_⟩⟩
  · have hcovered : ∀ p, base < p → p ≤ last' → ∃ e ∈ delivered ++ [u], e.positive ∧
        e.pts.toInt ≤ last' ∧ p ∈ e.interval.positions := by
      intro p h₁ h₂
      by_cases hp : p ≤ good
      · obtain ⟨e, he, hpos, hle, hmem⟩ := h.covered p h₁ hp
        exact ⟨e, by simp [he], hpos, hle.trans hlast, hmem⟩
      · obtain ⟨e, he, hrest⟩ := close hlast hapart hinside (heq.trans hsum) (not_le.mp hp) h₂
        exact ⟨e, hsubset e he, hrest⟩
    rw [← heq]
    exact {
      base_le := h.base_le.trans hlast
      good_le := le_refl _
      settled := fun _ => rfl
      covered := hcovered
      apart := List.Pairwise.nil
      inside := by simp
      sum := by simp
      subset := by simp
      all := fun e he hpos habove => absurd (hbound e he hpos) (not_le.mpr habove) }
  · exact {
      base_le := h.base_le
      good_le := hlast
      settled := fun heq => absurd heq hne
      covered := fun p h₁ h₂ => by
        obtain ⟨e, he, hrest⟩ := h.covered p h₁ h₂
        exact ⟨e, by simp [he], hrest⟩
      apart := hapart
      inside := hinside
      sum := hsum
      subset := hsubset
      all := fun e he hpos habove => by
        rcases List.mem_append.mp he with he | he
        · exact hsublist e (h.all e he hpos habove)
        · rw [List.mem_singleton.mp he] at hpos ⊢
          exact hcounted hpos }

end Counts

end Bettergram.Data
