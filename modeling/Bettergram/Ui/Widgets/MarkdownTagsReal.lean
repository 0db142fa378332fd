import Bettergram.Ui.Widgets.MarkdownTagTracking

/-! # Recognised markdown tags are real

Feeding ends. A tag that is closed stands between its own markers, with some text,
in fragments one after the other without a tag; every tag that was recorded lies
inside of the text, behind the start of the one before it.
-/

namespace Bettergram.Ui.Widgets

open Text (QChar QString charAt)

namespace MarkdownTagAccumulator

variable {view : View} {fed : List Fragment} {fragment : Fragment} {tag : MarkdownTag}
  {acc after : MarkdownTagAccumulator} {held : MarkdownTag → Prop} {last floor index : ℕ}

/-! ## Whole fragments -/

/-- The loop ends: each tag that is opened is behind the one before. -/
theorem Tracking.feedLoop (hfits : view.Fits fragment) (hblock : fragment.textTag = [])
    (rounds tryFinish : ℕ) {tried : MarkdownTagAccumulator} (hfloor : floor ≤ kInvalidPosition)
    (hrounds : fragment.text.length < floor + (rounds + 1))
    (htry : MarkdownTagAccumulator.tryFinishTags fragment.text (acc.currentFreeTag - tryFinish)
      tryFinish acc = some tried)
    (h : Tracking view fed ((view.whole fed).length + floor) (Held view fed fragment) tried)
    (hitems : ∀ kind, Ahead fragment.text (TagStartExpressions kind) floor (tried.items kind)) :
    ∃ after, feedLoop fragment.text (rounds + 1) tryFinish acc = some after ∧
      ∃ last, Tracking view fed last (Held view fed fragment) after := by
  induction rounds generalizing floor tryFinish acc tried with
  | zero =>
    refine ⟨tried.fillItems fragment.text, ?_, _, h.fillItems _⟩
    rw [MarkdownTagAccumulator.feedLoop, htry, Option.bind_some]
    simp only
    cases hmin : (tried.fillItems fragment.text).minIndex with
    | none => rfl
    | some kind =>
      obtain ⟨position, -, hle, -, hmarker, -⟩ := ahead_startTag hfloor hitems hmin
      have hlength := hmarker.length_le
      have hpos := List.length_pos_iff.mpr (marker_spec kind).1
      rw [List.length_drop] at hlength
      omega
  | succ rounds ih =>
    rw [MarkdownTagAccumulator.feedLoop, htry, Option.bind_some]
    simp only
    cases hmin : (tried.fillItems fragment.text).minIndex with
    | none => exact ⟨_, rfl, _, h.fillItems _⟩
    | some kind =>
      obtain ⟨position, hmatch, hle, hlt, hmarker, hahead⟩ := ahead_startTag hfloor hitems hmin
      simp only [hmatch]
      have htracked := (h.fillItems fragment.text).startTag hle hlt hmarker
      obtain ⟨filled, hfilled⟩ : ∃ filled, filled = tried.fillItems fragment.text := ⟨_, rfl⟩
      rw [← hfilled] at htracked hahead ⊢
      have hget := getElem?_startTag position (TagStartExpressions kind).tag
        (show filled.currentFreeTag ≤ filled.tags.length from hfilled ▸ h.free)
      obtain ⟨started, hstarted⟩ : ∃ started,
        started = filled.startTag position (TagStartExpressions kind).tag := ⟨_, rfl⟩
      have hitems' : ∀ other, started.items other = filled.items other := fun other => by
        rw [hstarted]
        rfl
      have hfree : started.currentFreeTag = filled.currentFreeTag + 1 := by
        rw [hstarted]
        rfl
      have hinternal : started.currentInternalLength = filled.currentInternalLength := by
        rw [hstarted]
        rfl
      rw [← hstarted] at htracked hget ⊢
      -- Only the item of the new tag may stand at its start, until the tag is tried.
      have hpending : ∀ other, Ahead fragment.text (TagStartExpressions other) (position + 1)
            (started.items other) ∨
          Pending started filled.currentFreeTag (position + 1) other ∧
            Ahead fragment.text (TagStartExpressions other) 0 (started.items other) := by
        intro other
        rw [hitems']
        by_cases hother : other = kind
        · refine .inr ⟨⟨_, hget, Int.negSucc_lt_zero 0, ?_, ?_⟩, (hahead other).1⟩
          · rw [hother]
            exact tagIndices_marker kind
          · rw [hinternal]
            simp only
            omega
        · exact .inl ((hahead other).2 hother)
      have hindex : filled.currentFreeTag < started.currentFreeTag := by omega
      obtain ⟨next, hnext, -, hnextTracked, hnextItems⟩ :=
        htracked.tryFinishTag hfits hblock hlt hindex hpending
      refine ih filled.currentFreeTag hlt (by omega) ?_ hnextTracked hnextItems
      rw [hfree, Nat.add_sub_cancel_left, MarkdownTagAccumulator.tryFinishTags, hnext]
      rfl

/-! ## Between fragments -/

/-- A tag between two fragments. -/
def Left (view : View) (fed : List Fragment) (tag : MarkdownTag) : Prop :=
  Done view fed tag ∨ Opening view fed tag

/-- The text gets longer by a fragment. -/
theorem Tracking.next {before : MarkdownTag → Prop}
    (h : Tracking view fed last before acc)
    (hheld : ∀ tag, before tag → held tag ∧
      view.start tag < (view.whole (fed ++ [fragment])).length) :
    Tracking view (fed ++ [fragment]) (view.whole (fed ++ [fragment])).length held
      { acc with
        currentInternalLength := acc.currentInternalLength + fragment.text.length
        currentAdjustedLength := acc.currentAdjustedLength + fragment.adjusted.length } := by
  refine ⟨h.current, h.free, ?_, ?_, fun i tag hholds => (hheld tag (h.held i tag hholds)).1,
    h.finished, h.sorted, fun i tag hholds => (hheld tag (h.held i tag hholds)).2⟩
  · rw [View.whole_append, View.whole_singleton, List.length_append, ← h.internal]
    rfl
  · rw [View.whole_append, View.whole_singleton, List.length_append, ← h.shown]
    cases view <;> rfl

/-- All tags are finished, one after the other. -/
theorem Tracking.finishTags_fold (h : Tracking view fed last (Left view fed) acc) (count : ℕ)
    (hcount : acc.currentTag + count = acc.currentFreeTag)
    (heq : after = (List.range' acc.currentTag count).foldl
      (fun acc index => acc.finishTag index 0 false) acc) :
    Tracking view fed last (Left view fed) after ∧ after.currentTag = after.currentFreeTag := by
  induction count generalizing acc with
  | zero =>
    subst heq
    exact ⟨h, hcount⟩
  | succ count ih =>
    have hfinished : Tracking view fed last (Left view fed)
        (acc.finishTag acc.currentTag 0 false) := by
      refine h.finishTag (by omega) fun tag hholds hopen => ?_
      have hopening : Opening view fed tag := (h.held _ tag hholds).resolve_left fun hdone =>
        not_lt.mpr hdone.finished hopen
      obtain ⟨kind, hkind⟩ := hopening.kind
      have hpos := tag_length_pos hkind
      have hinside := hopening.inside
      have hstart := hopening.start_add
      have hinternal := h.internal
      have hlength : 0 ≤ (acc.finishedAt 0 false tag).internalLength := by
        rw [finishedAt]
        simp only
        omega
      refine ⟨.inl ⟨hlength, ?_, ⟨(view.whole fed).length - view.start tag, ?_, ?_⟩,
        fun hno => absurd hno Bool.false_ne_true⟩, hlength⟩
      · rw [start_finishedAt]
        omega
      · rw [length_finishedAt, h.shown]
        omega
      · rw [start_finishedAt]
        omega
    have hcurrent : (acc.finishTag acc.currentTag 0 false).currentTag = acc.currentTag + 1 :=
      if_pos rfl
    have hfree : (acc.finishTag acc.currentTag 0 false).currentFreeTag = acc.currentFreeTag := rfl
    rw [List.range'_succ, List.foldl_cons, ← hcurrent] at heq
    exact ih hfinished (by omega) heq

theorem Tracking.finishTags (h : Tracking view fed last (Left view fed) acc) :
    Tracking view fed last (Done view fed) acc.finishTags ∧
      acc.finishTags.currentTag = acc.finishTags.currentFreeTag := by
  have hcurrent := h.current
  obtain ⟨hleft, heq⟩ := h.finishTags_fold (acc.currentFreeTag - acc.currentTag)
    (Nat.add_sub_of_le hcurrent) rfl
  refine ⟨⟨hleft.current, hleft.free, hleft.internal, hleft.shown, fun i tag hholds => ?_,
    hleft.finished, hleft.sorted, hleft.starts⟩, heq⟩
  refine (hleft.held i tag hholds).resolve_right fun hopening => ?_
  exact not_lt.mpr (hleft.finished i tag hholds (heq ▸ hholds.1)) hopening.unfinished

/-- A fragment is fed. -/
theorem Tracking.feed (hfits : view.Fits fragment)
    (h : Tracking view fed (view.whole fed).length (Left view fed) acc) {rounds : ℕ}
    (hrounds : fragment.text.length < rounds) :
    ∃ after, acc.feed rounds fragment = some after ∧
      Tracking view (fed ++ [fragment]) (view.whole (fed ++ [fragment])).length
        (Left view (fed ++ [fragment])) after := by
  rw [MarkdownTagAccumulator.feed]
  simp only
  by_cases hblock : fragment.textTag = []
  · obtain ⟨rounds, rfl⟩ : ∃ more, rounds = more + 1 := ⟨rounds - 1, by omega⟩
    have hcurrent := h.current
    obtain ⟨fresh, hfresh⟩ : ∃ fresh, fresh = { acc with items := fun _ => { } } := ⟨_, rfl⟩
    have hstart : Tracking view fed ((view.whole fed).length + 0) (Held view fed fragment)
        fresh := by
      rw [hfresh]
      refine ⟨h.current, h.free, h.internal, by rw [← h.shown]; cases view <;> rfl,
        fun i tag hholds => ?_, h.finished, h.sorted, h.starts⟩
      rcases h.held i tag hholds with hdone | hopening
      · exact .inl (hdone.append _)
      · exact .inr (.inl hopening)
    have hindex : acc.currentTag + (fresh.currentFreeTag - acc.currentTag) ≤
        fresh.currentFreeTag := by
      rw [hfresh]
      exact (Nat.add_sub_of_le hcurrent).le
    have hahead : ∀ kind, Ahead fragment.text (TagStartExpressions kind) 0 (fresh.items kind) := by
      rw [hfresh]
      exact fun kind => TagSearchItem.ahead_start fragment.text (TagStartExpressions kind)
    obtain ⟨tried, htried, htracked, hitems⟩ :=
      hstart.tryFinishTags hfits hblock (Nat.zero_le _) _ hindex hahead
    obtain ⟨looped, hlooped, last, hlast⟩ := Tracking.feedLoop hfits hblock rounds acc.currentTag
      (Nat.zero_le _) (by omega) htried htracked hitems
    rw [if_neg (not_not.mpr hblock), ← hfresh, hlooped]
    refine ⟨_, rfl, hlast.next fun tag hheld => ⟨?_, start_lt_of_held hfits hheld⟩⟩
    rcases hheld with hdone | hopening | hstarted
    · exact .inl hdone
    · exact .inr (hopening.append hfits hblock)
    · exact .inr (hstarted.opening hfits hblock)
  · rw [if_pos hblock]
    refine ⟨_, rfl, h.finishTags.1.next fun tag hdone => ?_⟩
    have hmore := hdone.append [fragment]
    exact ⟨.inl hmore, hmore.start⟩

/-- The fragments of a text are fed. -/
theorem Tracking.foldlM {rounds : ℕ} {fragments : List Fragment}
    (h : Tracking view fed (view.whole fed).length (Left view fed) acc)
    (hfits : ∀ fragment ∈ fragments, view.Fits fragment)
    (hrounds : ∀ fragment ∈ fragments, fragment.text.length < rounds) :
    ∃ after, fragments.foldlM (MarkdownTagAccumulator.feed rounds) acc = some after ∧
      Tracking view (fed ++ fragments) (view.whole (fed ++ fragments)).length
        (Left view (fed ++ fragments)) after := by
  induction fragments generalizing fed acc with
  | nil => exact ⟨acc, rfl, by rwa [List.append_nil]⟩
  | cons fragment fragments ih =>
    rw [List.forall_mem_cons] at hfits hrounds
    obtain ⟨next, hnext, htracked⟩ := h.feed hfits.1 hrounds.1
    obtain ⟨after, hafter, hall⟩ := ih htracked hfits.2 hrounds.2
    rw [List.append_assoc, List.singleton_append] at hall
    refine ⟨after, ?_, hall⟩
    rw [List.foldlM_cons, hnext]
    exact hafter

end MarkdownTagAccumulator

/-! ## Whole texts -/

/-- The tags of a text: each starts behind the one before and ends inside of the text, and those
that are closed stand between their own markers. -/
structure RealTags (view : View) (fragments : List Fragment) (tags : List MarkdownTag) : Prop where
  sorted : tags.Pairwise fun a b => view.start a < view.start b
  inside : ∀ tag ∈ tags, ∃ count : ℕ, view.length tag = count ∧
    view.start tag + count ≤ (view.whole fragments).length
  enclosed : ∀ tag ∈ tags, tag.closed = true → Enclosed view fragments tag

theorem realTags_finish {view : View} {fragments : List Fragment} {acc : MarkdownTagAccumulator}
    {last : ℕ} (h : MarkdownTagAccumulator.Tracking view fragments last
      (MarkdownTagAccumulator.Left view fragments) acc) : RealTags view fragments acc.finish := by
  obtain ⟨htracked, hcurrent⟩ := h.finishTags
  have hholds : ∀ (index : ℕ) (hlt : index < acc.finish.length),
      acc.finishTags.Holds index acc.finish[index] := by
    intro index hlt
    have hfinish : acc.finish = acc.finishTags.tags.take acc.finishTags.currentTag := rfl
    have hless : index < acc.finishTags.currentTag := by
      rw [hfinish, List.length_take] at hlt
      omega
    refine ⟨hcurrent ▸ hless, ?_⟩
    rw [← List.getElem?_take_of_lt hless, ← hfinish, List.getElem?_eq_getElem hlt]
  have hmem : ∀ tag ∈ acc.finish, Done view fragments tag := by
    intro tag htag
    obtain ⟨index, hlt, rfl⟩ := List.mem_iff_getElem.mp htag
    exact htracked.held index _ (hholds index hlt)
  refine ⟨?_, fun tag htag => (hmem tag htag).stop, fun tag htag => (hmem tag htag).real⟩
  rw [List.pairwise_iff_getElem]
  intro i j hi hj hij
  exact htracked.sorted i j _ _ hij (hholds i hi) (hholds j hj)

/-- Feeding the fragments ends, a round for each character of a fragment and one more is enough.
The tags that are recorded are real, in what was fed and in the text that was added if each
fragment has no emoji or only emoji. -/
theorem markdownTags_real (before : List MarkdownTag) (fragments : List Fragment) (rounds : ℕ)
    (hrounds : ∀ fragment ∈ fragments, fragment.text.length < rounds) :
    ∃ tags, markdownTags rounds before fragments = some tags ∧
      RealTags .internal fragments tags ∧
      ((∀ fragment ∈ fragments, View.adjusted.Fits fragment) →
        RealTags .adjusted fragments tags) := by
  have hstart : ∀ view : View, MarkdownTagAccumulator.Tracking view [] 0
      (MarkdownTagAccumulator.Left view []) (MarkdownTagAccumulator.start before) := fun view =>
    ⟨le_rfl, Nat.zero_le _, rfl, by cases view <;> rfl,
      fun _ _ h => absurd h.1 (Nat.not_lt_zero _), fun _ _ h => absurd h.1 (Nat.not_lt_zero _),
      fun _ _ _ _ _ h => absurd h.1 (Nat.not_lt_zero _),
      fun _ _ h => absurd h.1 (Nat.not_lt_zero _)⟩
  obtain ⟨acc, hacc, hinternal⟩ := (hstart .internal).foldlM
    (fun fragment _ => View.fits_internal fragment) hrounds
  refine ⟨acc.finish, ?_, realTags_finish hinternal, fun hfits => ?_⟩
  · rw [markdownTags, hacc]
    rfl
  · obtain ⟨acc', hacc', hadjusted⟩ := (hstart .adjusted).foldlM hfits hrounds
    obtain rfl := Option.some.inj (hacc'.symm.trans hacc)
    exact realTags_finish hadjusted


/-- Bold text in two fragments. -/
def boldFragments : List Fragment :=
  [⟨[42, 42, 97], [42, 42, 97], []⟩, ⟨[98, 42, 42], [98, 42, 42], []⟩]

theorem markdownTags_real_bold :
    markdownTags 4 [] boldFragments = some [⟨0, 6, 0, 6, true, kTagBold⟩] ∧
      RealTags .adjusted boldFragments [⟨0, 6, 0, 6, true, kTagBold⟩] := by
  have hplain : ∀ fragment ∈ boldFragments, View.adjusted.Fits fragment := by
    intro fragment hmem
    rcases List.mem_pair.mp hmem with rfl | rfl
    · exact .inl rfl
    · exact .inl rfl
  obtain ⟨tags, htags, -, hreal⟩ := markdownTags_real [] boldFragments 4 (by simp [boldFragments])
  have hresult : markdownTags 4 [] boldFragments = some [⟨0, 6, 0, 6, true, kTagBold⟩] := by decide
  obtain rfl := Option.some.inj (hresult.symm.trans htags)
  exact ⟨hresult, hreal hplain⟩

end Bettergram.Ui.Widgets
