import Bettergram.Ui.Widgets.AppliedMarkdown
import Bettergram.Ui.Widgets.MarkdownTagPlaces

/-! # What is left of a text

Positions move to the left by what has been removed before them. Outside of the tags
that are applied they keep their order, and what is left between two of them is what
was there.
-/

namespace Bettergram.Ui.Widgets

open Text (QChar QString charAt)

variable {text : QString} {start stop : ℕ} {applied : List Applied}

/-! ## Slices -/

theorem slice_length {text : QString} {start stop : ℕ} (h : stop ≤ text.length) :
    (slice text start stop).length = stop - start := by
  rw [slice, List.length_take, List.length_drop]
  omega

theorem slice_append {a b c : ℕ} (hab : a ≤ b) (hbc : b ≤ c) (text : QString) :
    slice text a b ++ slice text b c = slice text a c := by
  have hsum : c - a = (b - a) + (c - b) := by omega
  rw [slice, slice, slice, hsum, List.take_add, List.drop_drop, Nat.add_sub_cancel' hab]

theorem slice_slice {a b c : ℕ} {i j : ℕ} (hi : a + i = b) (hj : a + j = c) {d : ℕ} (hd : c ≤ d)
    (text : QString) : slice (slice text a d) i j = slice text b c := by
  rw [slice, slice, slice, List.drop_take, List.take_take, List.drop_drop, hi]
  congr 1
  omega

theorem slice_append_left {front back : QString} {i j : ℕ} (h : j ≤ front.length) :
    slice (front ++ back) i j = slice front i j := by
  by_cases hij : i ≤ j
  · rw [slice, slice, List.drop_append_of_le_length (hij.trans h), List.take_append_of_le_length]
    rw [List.length_drop]
    omega
  · rw [slice, slice, Nat.sub_eq_zero_of_le (by omega), List.take_zero, List.take_zero]

theorem slice_append_right {front back : QString} {i j : ℕ} :
    slice (front ++ back) (front.length + i) (front.length + j) = slice back i j := by
  rw [slice, slice, List.drop_length_add_append, Nat.add_sub_add_left]

/-! ## Tags in order -/

structure Applied.Inside (a : Applied) : Prop where
  start : a.tagStart ≤ a.start
  content : a.start ≤ a.stop
  stop : a.stop ≤ a.tagStop
  pos : a.tagStart < a.tagStop

/-- The tags stand one behind the other from `start` to `stop`. -/
def Ordered : ℕ → List Applied → ℕ → Prop
  | start, [], stop => start ≤ stop
  | start, a :: applied, stop => start ≤ a.tagStart ∧ a.Inside ∧ Ordered a.tagStop applied stop

theorem Ordered.le (h : Ordered start applied stop) : start ≤ stop := by
  induction applied generalizing start with
  | nil => exact h
  | cons a applied ih =>
    have := h.2.1.pos
    have := ih h.2.2
    have := h.1
    omega

theorem Ordered.mono (h : Ordered start applied stop) {later : ℕ} (hle : stop ≤ later) :
    Ordered start applied later := by
  induction applied generalizing start with
  | nil => exact le_trans h hle
  | cons a applied ih => exact ⟨h.1, h.2.1, ih h.2.2⟩

theorem ordered_concat {a : Applied} : Ordered start (applied ++ [a]) stop ↔
    Ordered start applied a.tagStart ∧ a.Inside ∧ a.tagStop ≤ stop := by
  induction applied generalizing start with
  | nil => exact Iff.rfl
  | cons b applied ih =>
    rw [List.cons_append, Ordered, Ordered, ih, and_assoc, and_assoc]

theorem Ordered.mem (h : Ordered start applied stop) {a : Applied} (ha : a ∈ applied) :
    start ≤ a.tagStart ∧ a.Inside ∧ a.tagStop ≤ stop := by
  induction applied generalizing start with
  | nil => cases ha
  | cons b applied ih =>
    obtain rfl | ha := List.mem_cons.mp ha
    · exact ⟨h.1, h.2.1, h.2.2.le⟩
    · obtain ⟨hstart, hinside, hstop⟩ := ih h.2.2 ha
      have := h.2.1.pos
      have := h.1
      exact ⟨by omega, hinside, hstop⟩

theorem Ordered.apart (h : Ordered start applied stop) :
    applied.Pairwise fun a b => a.tagStop ≤ b.tagStart := by
  induction applied generalizing start with
  | nil => exact List.Pairwise.nil
  | cons b applied ih =>
    exact List.pairwise_cons.mpr ⟨fun a ha => (h.2.2.mem ha).1, ih h.2.2⟩

/-! ## The text that is left -/

theorem kept_concat (text : QString) (start : ℕ) (applied : List Applied) (a : Applied)
    (stop : ℕ) : kept text start (applied ++ [a]) stop =
      kept text start applied a.tagStart ++ slice text a.start a.stop ++
        slice text a.tagStop stop := by
  induction applied generalizing start with
  | nil => rfl
  | cons b applied ih =>
    rw [List.cons_append, kept, kept, ih]
    simp only [List.append_assoc]

theorem kept_append_slice (text : QString) (h : Ordered start applied stop) {later : ℕ}
    (hle : stop ≤ later) :
    kept text start applied stop ++ slice text stop later = kept text start applied later := by
  induction applied generalizing start with
  | nil => exact slice_append h hle text
  | cons a applied ih => rw [kept, kept, List.append_assoc, ih h.2.2]

/-- How much is removed in all. -/
def totalRemoved (applied : List Applied) : ℤ := (applied.map Applied.removed).sum

theorem kept_length (h : Ordered start applied stop) (hstop : stop ≤ text.length) :
    ((kept text start applied stop).length : ℤ) = stop - start - totalRemoved applied := by
  induction applied generalizing start with
  | nil =>
    have : start ≤ stop := h
    rw [kept, slice_length hstop, totalRemoved, List.map_nil, List.sum_nil]
    omega
  | cons a applied ih =>
    obtain ⟨hstart, hinside, hrest⟩ := h
    have hle := hrest.le
    have := hinside.pos
    have := hinside.stop
    have := hinside.content
    have hih := ih hrest
    rw [totalRemoved] at hih
    rw [kept, List.length_append, List.length_append, slice_length (by omega),
      slice_length (by omega), totalRemoved, List.map_cons, List.sum_cons, Applied.removed]
    push_cast
    omega

/-! ## What is removed before a position -/

section SumBefore

variable (count : Applied → ℤ) (applied : List Applied) (position : ℤ)

theorem sumBefore_cons (a : Applied) : sumBefore count (a :: applied) position =
    (if (a.tagStop : ℤ) ≤ position then count a else 0) + sumBefore count applied position := by
  rw [sumBefore, sumBefore, List.map_cons, List.sum_cons]

theorem sumBefore_concat (a : Applied) : sumBefore count (applied ++ [a]) position =
    sumBefore count applied position + if (a.tagStop : ℤ) ≤ position then count a else 0 := by
  rw [sumBefore, sumBefore, List.map_append, List.sum_append, List.map_singleton,
    List.sum_singleton]

variable {applied position}

theorem sumBefore_eq_zero (h : ∀ a ∈ applied, position < a.tagStop) :
    sumBefore count applied position = 0 := by
  rw [sumBefore]
  refine List.sum_eq_zero fun x hx => ?_
  obtain ⟨a, ha, rfl⟩ := List.mem_map.mp hx
  exact if_neg (not_le.mpr (h a ha))

theorem sumBefore_eq_sum (h : ∀ a ∈ applied, (a.tagStop : ℤ) ≤ position) :
    sumBefore count applied position = (applied.map count).sum :=
  congrArg List.sum (List.map_congr_left fun a ha => if_pos (h a ha))

/-- A tag that ends behind a position does not count. -/
theorem sumBefore_concat_of_lt {a : Applied} (h : position < a.tagStop) :
    sumBefore count (applied ++ [a]) position = sumBefore count applied position := by
  rw [sumBefore_concat, if_neg (not_le.mpr h), add_zero]

end SumBefore

theorem Ordered.removedBefore_start (h : Ordered start applied stop) {position : ℤ}
    (hposition : position ≤ start) : removedBefore applied position = 0 :=
  sumBefore_eq_zero _ fun a ha => by
    have := (h.mem ha).1
    have := (h.mem ha).2.1.pos
    omega

/-- Between two positions no more is removed than there is. -/
theorem removedBefore_le (h : Ordered start applied stop) {a b : ℤ} (hab : a ≤ b)
    (hclear : ∀ c ∈ applied, a ≤ c.tagStart ∨ (c.tagStop : ℤ) ≤ a) :
    a - removedBefore applied a ≤ b - removedBefore applied b := by
  induction applied generalizing start a with
  | nil =>
    rw [removedBefore, removedBefore, sumBefore_eq_zero _ (by simp), sumBefore_eq_zero _ (by simp)]
    omega
  | cons c applied ih =>
    obtain ⟨-, hinside, hrest⟩ := h
    rw [List.forall_mem_cons] at hclear
    have hcontent := hinside.content
    have hpos := hinside.pos
    rw [removedBefore, removedBefore, sumBefore_cons, sumBefore_cons, ← removedBefore,
      ← removedBefore]
    by_cases hca : (c.tagStop : ℤ) ≤ a
    · have := ih hrest hab hclear.2
      rw [if_pos hca, if_pos (hca.trans hab)]
      omega
    · have hac := hclear.1.resolve_right hca
      rw [if_neg hca, hrest.removedBefore_start (by omega)]
      by_cases hcb : (c.tagStop : ℤ) ≤ b
      · have := ih hrest hcb fun d hd => .inl (by exact_mod_cast (hrest.mem hd).1)
        rw [hrest.removedBefore_start le_rfl] at this
        rw [if_pos hcb, Applied.removed]
        omega
      · rw [if_neg hcb, hrest.removedBefore_start (by omega)]
        omega

/-- What is left between two positions outside of the tags is what was there. -/
theorem slice_kept (h : Ordered start applied stop) (hstop : stop ≤ text.length) {a b i : ℕ}
    (ha : start ≤ a) (hab : a ≤ b) (hb : b ≤ stop)
    (hclear : ∀ c ∈ applied, b ≤ c.tagStart ∨ c.tagStop ≤ a)
    (hi : (i : ℤ) = a - start - removedBefore applied a) :
    slice (kept text start applied stop) i (i + (b - a)) = slice text a b := by
  induction applied generalizing start i with
  | nil =>
    rw [removedBefore, sumBefore_eq_zero _ (by simp)] at hi
    exact slice_slice (by omega) (by omega) hb text
  | cons c applied ih =>
    obtain ⟨hstart, hinside, hrest⟩ := h
    rw [List.forall_mem_cons] at hclear
    have hle := hrest.le
    have hpos := hinside.pos
    have hcontent := hinside.content
    have hcontentStop := hinside.stop
    rw [removedBefore, sumBefore_cons, ← removedBefore] at hi
    rw [kept]
    obtain hbc | hca := hclear.1
    · rw [if_neg (by omega), hrest.removedBefore_start (by omega)] at hi
      rw [List.append_assoc, slice_append_left (by rw [slice_length (by omega)]; omega)]
      exact slice_slice (by omega) (by omega) hbc text
    · rw [if_pos (by exact_mod_cast hca)] at hi
      have hbefore := removedBefore_le hrest (a := c.tagStop) (b := a) (by omega) fun d hd =>
        .inl (by exact_mod_cast (hrest.mem hd).1)
      rw [hrest.removedBefore_start le_rfl] at hbefore
      obtain ⟨k, hk⟩ := Int.eq_ofNat_of_zero_le
        (show (0 : ℤ) ≤ a - c.tagStop - removedBefore applied a by omega)
      have hlength : (slice text start c.tagStart ++ slice text c.start c.stop).length =
          c.tagStart - start + (c.stop - c.start) := by
        rw [List.length_append, slice_length (by omega), slice_length (by omega)]
      have hik : i = (slice text start c.tagStart ++ slice text c.start c.stop).length + k := by
        rw [hlength]
        rw [Applied.removed] at hi
        omega
      rw [hik, Nat.add_assoc, slice_append_right]
      exact ih hrest hca hclear.2 hk.symm

end Bettergram.Ui.Widgets

/-! ## The content of a tag

A newline that is the only one between the markers of a `pre` block can be redundant
on both sides. Then one character too many counts as removed.
-/

namespace Bettergram.Ui.Widgets

open Text (QChar QString charAt EntityInText)

variable {text before : QString} {tag : MarkdownTag} {applied : List Applied}

@[simp] theorem remaining_tag (text before : QString) (tag : MarkdownTag) :
    (remaining text before tag).tag = tag := by
  rw [remaining]
  split_ifs <;> rfl

/-- One for a newline that is removed twice. -/
def overcount (text : QString) (a : Applied) : ℤ := if TrimmedTwice text a then 1 else 0

theorem overcount_nonneg (text : QString) (a : Applied) : 0 ≤ overcount text a := by
  rw [overcount]
  split_ifs <;> decide

/-- What is left of a tag with a content. -/
structure RemainingRight (text : QString) (a : Applied) : Prop where
  start : a.tagStart + a.tag.tag.length ≤ a.start
  content : a.start ≤ a.stop
  stop : a.stop + a.tag.tag.length ≤ a.tagStop
  pos : a.tagStart < a.tagStop
  starts : a.start = a.tagStart + a.tag.tag.length ∨
    (a.tag.tag = kTagPre ∧ a.start = a.tagStart + a.tag.tag.length + 1 ∧
      IsNewline (charAt text (a.start - 1)) = true)
  stops : a.stop + a.tag.tag.length = a.tagStop ∨
    (a.tag.tag = kTagPre ∧ a.stop + 1 + a.tag.tag.length = a.tagStop ∧
      IsNewline (charAt text a.stop) = true)

theorem RemainingRight.inside {a : Applied} (h : RemainingRight text a) : a.Inside := by
  have := h.start
  have := h.stop
  exact ⟨by omega, h.content, by omega, h.pos⟩

theorem tagStop_remaining {stop : ℕ} (hstop : tag.adjustedEnd = stop) {a : Applied}
    (ha : a = remaining text before tag) :
    a.tag = tag ∧ a.tagStart = tag.adjustedStart ∧ a.tagStop = stop := by
  have htag : a.tag = tag := by rw [ha, remaining_tag]
  refine ⟨htag, by rw [Applied.tagStart, htag], ?_⟩
  rw [Applied.tagStop, htag, hstop, Int.toNat_natCast]

/-- The content of a tag that is not a `pre` block. -/
theorem remaining_spec_of_ne (hpre : tag.tag ≠ kTagPre) (hcontent : 0 < tag.entityLength) {stop : ℕ}
    (hstop : tag.adjustedEnd = stop) {a : Applied} (ha : a = remaining text before tag) :
    RemainingRight text a ∧
      withoutNewlines text before tag (tag.adjustedStart + tag.tag.length) tag.entityLength =
        (a.start, a.stop - a.start - overcount text a) := by
  have hlength : tag.entityLength = tag.adjustedEnd - tag.adjustedStart - 2 * tag.tag.length := by
    rw [MarkdownTag.entityLength, MarkdownTag.adjustedEnd]
    omega
  obtain ⟨htag, htagStart, htagStop⟩ := tagStop_remaining hstop ha
  rw [remaining, if_neg hpre] at ha
  rw [withoutNewlines, if_neg hpre, overcount, if_neg fun htwice => hpre (htag ▸ htwice.1)]
  have hstart : a.start = tag.adjustedStart + tag.tag.length := by rw [ha]
  have hstop' : a.stop = stop - tag.tag.length := by
    rw [ha]
    simp only
    omega
  refine ⟨⟨?_, ?_, ?_, ?_, .inl ?_, .inl ?_⟩, ?_⟩
  · rw [htag]
    omega
  · omega
  · rw [htag]
    omega
  · omega
  · rw [htag]
    omega
  · rw [htag]
    omega
  · rw [Prod.mk.injEq]
    exact ⟨hstart.symm, by omega⟩

/-- The newline before the closing marker is redundant. -/
def endRedundant (text : QString) (tag : MarkdownTag) (stop : ℕ) : Bool :=
  IsNewline (charAt text (stop - 1)) &&
    (text.length ≤ stop + tag.tag.length || IsNewline (charAt text (stop + tag.tag.length)))

/-- The content of a `pre` block from `start` to `last`, and `front` behind a newline that is
redundant. -/
theorem remaining_of_pre (hpre : tag.tag = kTagPre) {start last front : ℕ}
    (hstart : start = tag.adjustedStart + tag.tag.length)
    (hlast : last = (tag.adjustedEnd - tag.tag.length).toNat)
    (hfront : front = if IsNewline (charAt text start) && endsLine before then start + 1 else start) :
    remaining text before tag =
      ⟨tag, front, if front < last && endRedundant text tag last then last - 1 else last⟩ := by
  rw [remaining, if_pos hpre, endRedundant, hfront, ← Bool.and_assoc, hlast, hstart]

theorem withoutNewlines_of_pre (hpre : tag.tag = kTagPre) {start last front : ℕ}
    (hfront : front = if IsNewline (charAt text start) && endsLine before then start + 1 else start) :
    withoutNewlines text before tag start (last - start) =
      if endRedundant text tag last then (front, (last : ℤ) - front - 1)
      else (front, (last : ℤ) - front) := by
  have hentity : (if IsNewline (charAt text start) && endsLine before then
      (start + 1, (last : ℤ) - start - 1) else (start, (last : ℤ) - start)) =
        (front, (last : ℤ) - front) := by
    rw [hfront]
    split_ifs
    · rw [Nat.cast_succ, sub_sub]
    · rfl
  have hend : ((front : ℤ) + (last - front)).toNat = last := by
    rw [add_sub_cancel, Int.toNat_natCast]
  rw [withoutNewlines, if_pos hpre]
  rw [endsLine] at hentity
  simp only [hentity, hend]
  rfl

/-- The content of a `pre` block. -/
theorem remaining_spec_of_pre (hpre : tag.tag = kTagPre) (hcontent : 0 < tag.entityLength) {stop : ℕ}
    (hstop : tag.adjustedEnd = stop) {a : Applied} (ha : a = remaining text before tag) :
    RemainingRight text a ∧
      withoutNewlines text before tag (tag.adjustedStart + tag.tag.length) tag.entityLength =
        (a.start, a.stop - a.start - overcount text a) := by
  have hlength : tag.entityLength = tag.adjustedEnd - tag.adjustedStart - 2 * tag.tag.length := by
    rw [MarkdownTag.entityLength, MarkdownTag.adjustedEnd]
    omega
  obtain ⟨htag, htagStart, htagStop⟩ := tagStop_remaining hstop ha
  obtain ⟨start, hstart⟩ : ∃ start, start = tag.adjustedStart + tag.tag.length := ⟨_, rfl⟩
  obtain ⟨last, hlast⟩ : ∃ last, last = (tag.adjustedEnd - tag.tag.length).toNat := ⟨_, rfl⟩
  obtain ⟨front, hfront⟩ : ∃ front, front =
    if IsNewline (charAt text start) && endsLine before then start + 1 else start := ⟨_, rfl⟩
  have hcontent' : tag.entityLength = (last : ℤ) - start := by omega
  rw [remaining_of_pre hpre hstart hlast hfront] at ha
  rw [← hstart, hcontent', withoutNewlines_of_pre hpre hfront]
  have hfrontCases : front = start ∨ (front = start + 1 ∧ IsNewline (charAt text start) = true) := by
    rw [hfront]
    split_ifs with hnewline
    · exact .inr ⟨rfl, (Bool.and_eq_true_iff.mp hnewline).1⟩
    · exact .inl rfl
  have hstartEq : a.start = front := by rw [ha]
  have hstopEq : a.stop =
      if front < last && endRedundant text tag last then last - 1 else last := by rw [ha]
  have hstopSum : last + tag.tag.length = stop := by omega
  have htwice : TrimmedTwice text a ↔ front = last ∧ endRedundant text tag last = true := by
    rw [TrimmedTwice, htag, htagStart, htagStop, hstartEq, endRedundant, hstopSum,
      Bool.and_eq_true, Bool.or_eq_true, decide_eq_true_eq, and_iff_right hpre]
    constructor
    · rintro ⟨hfront', hlast', hend⟩
      have hnewline := (hfrontCases.resolve_left (by omega)).2
      have hbefore : last - 1 = start := by omega
      exact ⟨by omega, by rwa [hbefore], hend⟩
    · rintro ⟨hfront', -, hend⟩
      exact ⟨by omega, by omega, hend⟩
  have hstarts : a.start = a.tagStart + a.tag.tag.length ∨
      (a.tag.tag = kTagPre ∧ a.start = a.tagStart + a.tag.tag.length + 1 ∧
        IsNewline (charAt text (a.start - 1)) = true) := by
    rw [hstartEq, htag, htagStart, ← hstart]
    obtain hfront' | ⟨hfront', hnewline⟩ := hfrontCases
    · exact .inl hfront'
    · refine .inr ⟨hpre, hfront', ?_⟩
      rwa [hfront', Nat.add_sub_cancel]
  have hfrontLe : front ≤ last := by
    obtain hfront' | ⟨hfront', -⟩ := hfrontCases <;> omega
  have hstartLe : start ≤ front := by
    obtain hfront' | ⟨hfront', -⟩ := hfrontCases <;> omega
  by_cases hend : endRedundant text tag last = true ∧ front < last
  · obtain ⟨hend, hlt⟩ := hend
    rw [if_pos (by rw [decide_eq_true hlt, hend]; rfl)] at hstopEq
    rw [if_pos hend, overcount, if_neg fun h => hlt.ne (htwice.mp h).1, hstartEq]
    refine ⟨⟨?_, ?_, ?_, ?_, hstarts, .inr ⟨?_, ?_, ?_⟩⟩, ?_⟩
    · rw [hstartEq, htag, htagStart]
      omega
    · omega
    · rw [htag]
      omega
    · omega
    · rw [htag, hpre]
    · rw [htag]
      omega
    · rw [hstopEq]
      exact (Bool.and_eq_true_iff.mp hend).1
    · rw [Prod.mk.injEq]
      exact ⟨rfl, by omega⟩
  · have hstopEq' : a.stop = last := by
      rw [hstopEq, if_neg]
      rwa [Bool.and_eq_true, decide_eq_true_eq, and_comm]
    refine ⟨⟨?_, ?_, ?_, ?_, hstarts, .inl ?_⟩, ?_⟩
    · rw [hstartEq, htag, htagStart]
      omega
    · omega
    · rw [htag]
      omega
    · omega
    · rw [htag]
      omega
    · rw [hstartEq, hstopEq', overcount]
      by_cases hredundant : endRedundant text tag last = true
      · have hfrontEq : front = last :=
          le_antisymm hfrontLe (not_lt.mp fun hlt => hend ⟨hredundant, hlt⟩)
        rw [if_pos hredundant, if_pos (htwice.mpr ⟨hfrontEq, hredundant⟩)]
      · rw [if_neg hredundant, if_neg fun h => hredundant (htwice.mp h).2, sub_zero]

/-- The content of a tag, without the newlines that are redundant. -/
theorem remaining_spec (text before : QString) (hcontent : 0 < tag.entityLength) {stop : ℕ}
    (hstop : tag.adjustedEnd = stop) {a : Applied} (ha : a = remaining text before tag) :
    RemainingRight text a ∧
      withoutNewlines text before tag (tag.adjustedStart + tag.tag.length) tag.entityLength =
        (a.start, a.stop - a.start - overcount text a) := by
  by_cases hpre : tag.tag = kTagPre
  · exact remaining_spec_of_pre hpre hcontent hstop ha
  · exact remaining_spec_of_ne hpre hcontent hstop ha

end Bettergram.Ui.Widgets
