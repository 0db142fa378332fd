import Bettergram.Ui.Widgets.MarkdownTagViews

/-! # Markdown tags while a fragment is fed

Trying to finish a tag closes it behind a marker of its own, or ends it with its line;
the first marker that is left opens a tag behind all tags before.
-/

namespace Bettergram.Ui.Widgets

open Text (QChar QString charAt)

namespace MarkdownTagAccumulator

variable {view : View} {fed : List Fragment} {fragment : Fragment} {tag : MarkdownTag}
  {acc after : MarkdownTagAccumulator} {held : MarkdownTag → Prop} {last floor index : ℕ}

/-! ## The tags of an accumulator -/

/-- A tag of the text has an index. -/
def Holds (acc : MarkdownTagAccumulator) (index : ℕ) (tag : MarkdownTag) : Prop :=
  index < acc.currentFreeTag ∧ acc.tags[index]? = some tag

/-- A tag when it is finished. -/
def finishedAt (acc : MarkdownTagAccumulator) (offset : ℕ) (closed : Bool) (tag : MarkdownTag) :
    MarkdownTag :=
  { tag with
    internalLength := acc.currentInternalLength + offset - tag.internalStart
    adjustedLength := acc.currentAdjustedLength + offset - tag.adjustedStart
    closed := closed }

@[simp] theorem start_finishedAt (view : View) (acc : MarkdownTagAccumulator) (offset : ℕ)
    (closed : Bool) (tag : MarkdownTag) :
    view.start (acc.finishedAt offset closed tag) = view.start tag := by
  cases view <;> rfl

theorem length_finishedAt (view : View) (acc : MarkdownTagAccumulator) (offset : ℕ)
    (closed : Bool) (tag : MarkdownTag) :
    view.length (acc.finishedAt offset closed tag) =
      view.current acc + offset - view.start tag := by
  cases view <;> rfl

/-- The tags stand in order before `last`, and `held` is known of each. -/
structure Tracking (view : View) (fed : List Fragment) (last : ℕ) (held : MarkdownTag → Prop)
    (acc : MarkdownTagAccumulator) : Prop where
  current : acc.currentTag ≤ acc.currentFreeTag
  free : acc.currentFreeTag ≤ acc.tags.length
  internal : acc.currentInternalLength = (View.internal.whole fed).length
  shown : view.current acc = (view.whole fed).length
  held : ∀ index tag, acc.Holds index tag → held tag
  finished : ∀ index tag, acc.Holds index tag → index < acc.currentTag → 0 ≤ tag.internalLength
  sorted : ∀ i j a b, i < j → acc.Holds i a → acc.Holds j b → view.start a < view.start b
  starts : ∀ index tag, acc.Holds index tag → view.start tag < last

theorem Tracking.setItem (h : Tracking view fed last held acc) (kind : Fin 4)
    (item : TagSearchItem) : Tracking view fed last held (acc.setItem kind item) :=
  ⟨h.current, h.free, h.internal, by rw [← h.shown]; cases view <;> rfl, h.held, h.finished,
    h.sorted, h.starts⟩

theorem Tracking.fillItems (h : Tracking view fed last held acc) (text : QString) :
    Tracking view fed last held (acc.fillItems text) :=
  ⟨h.current, h.free, h.internal, by rw [← h.shown]; cases view <;> rfl, h.held, h.finished,
    h.sorted, h.starts⟩

theorem holds_finishTag {offset i : ℕ} {closed : Bool}
    (h : (acc.finishTag index offset closed).Holds i tag) :
    (acc.Holds i tag ∧ (i = index → 0 ≤ tag.internalLength)) ∨
      ∃ old, i = index ∧ acc.Holds index old ∧ old.internalLength < 0 ∧
        tag = acc.finishedAt offset closed old := by
  obtain ⟨hlt, hget⟩ := h
  rw [MarkdownTagAccumulator.finishTag] at hget
  simp only [List.getElem?_modify] at hget
  obtain ⟨old, hold, heq⟩ := Option.map_eq_some_iff.mp hget
  split_ifs at heq with hindex hopen
  · obtain rfl := hindex
    exact .inr ⟨old, rfl, ⟨hlt, hold⟩, hopen, heq.symm⟩
  · obtain rfl := heq
    exact .inl ⟨⟨hlt, hold⟩, fun _ => not_lt.mp hopen⟩
  · obtain rfl := heq
    exact .inl ⟨⟨hlt, hold⟩, fun heq => absurd heq.symm hindex⟩

/-- A tag that is finished keeps its place. -/
theorem Tracking.finishTag (h : Tracking view fed last held acc) (hindex : index < acc.currentFreeTag)
    {offset : ℕ} {closed : Bool}
    (hdone : ∀ tag, acc.Holds index tag → tag.internalLength < 0 →
      held (acc.finishedAt offset closed tag) ∧
        0 ≤ (acc.finishedAt offset closed tag).internalLength) :
    Tracking view fed last held (acc.finishTag index offset closed) := by
  have hstart : ∀ i tag, (acc.finishTag index offset closed).Holds i tag →
      ∃ old, acc.Holds i old ∧ view.start tag = view.start old := by
    intro i tag hholds
    rcases holds_finishTag hholds with ⟨hsame, -⟩ | ⟨old, rfl, hold, -, rfl⟩
    · exact ⟨tag, hsame, rfl⟩
    · exact ⟨old, hold, start_finishedAt _ _ _ _ _⟩
  have hcurrent := h.current
  have hnext : (acc.finishTag index offset closed).currentTag =
      if index = acc.currentTag then acc.currentTag + 1 else acc.currentTag := rfl
  constructor
  · rw [hnext, show (acc.finishTag index offset closed).currentFreeTag = acc.currentFreeTag from rfl]
    split_ifs <;> omega
  · rw [MarkdownTagAccumulator.finishTag]
    simp only [List.length_modify]
    exact h.free
  · exact h.internal
  · rw [← h.shown]
    cases view <;> rfl
  · intro i tag hholds
    rcases holds_finishTag hholds with ⟨hsame, -⟩ | ⟨old, -, hold, hopen, rfl⟩
    · exact h.held i tag hsame
    · exact (hdone old hold hopen).1
  · intro i tag hholds hlt
    rcases holds_finishTag hholds with ⟨hsame, hdoneAt⟩ | ⟨old, -, hold, hopen, rfl⟩
    · by_cases hbefore : i < acc.currentTag
      · exact h.finished i tag hsame hbefore
      · rw [hnext] at hlt
        split_ifs at hlt <;> exact hdoneAt (by omega)
    · exact (hdone old hold hopen).2
  · intro i j a b hij ha hb
    obtain ⟨olda, hola, hstarta⟩ := hstart i a ha
    obtain ⟨oldb, holb, hstartb⟩ := hstart j b hb
    rw [hstarta, hstartb]
    exact h.sorted i j olda oldb hij hola holb
  · intro i tag hholds
    obtain ⟨old, hold, heq⟩ := hstart i tag hholds
    rw [heq]
    exact h.starts i old hold


/-! ## Tags that are finished in a fragment -/

/-- A tag that ends inside of the fragment. -/
theorem done_of_stop (hfits : view.Fits fragment) (h : Tracking view fed last held acc)
    (hopen : Opening view fed tag ∨ Started view fed fragment tag) (offset : ℕ) (closed : Bool)
    (hplain : view.part fragment = fragment.text) (hle : offset ≤ fragment.text.length)
    (hstart : tag.internalStart ≤ acc.currentInternalLength + offset)
    (hreal : closed = true →
      Enclosed view (fed ++ [fragment]) (acc.finishedAt offset closed tag)) :
    Done view (fed ++ [fragment]) (acc.finishedAt offset closed tag) := by
  have hbefore : view.start tag ≤ (view.whole fed).length + offset := by
    rcases hopen with hopening | hstarted
    · have := hopening.start_add
      omega
    · obtain ⟨place, hinternal, hshown, -⟩ := hstarted.place
      have := h.internal
      omega
  have hinside := start_lt_of_held hfits (.inr hopen)
  refine ⟨?_, ?_, ⟨(view.whole fed).length + offset - view.start tag, ?_, ?_⟩, hreal⟩
  · rw [finishedAt]
    simp only
    omega
  · rwa [start_finishedAt]
  · rw [length_finishedAt, h.shown]
    omega
  · rw [start_finishedAt, View.whole_append, View.whole_singleton, hplain, List.length_append]
    omega

/-- A tag whose marker stands in the fragment is closed behind the marker. -/
theorem enclosed_of_close (h : Tracking view fed last held acc) (hblock : fragment.textTag = [])
    (hopen : Opening view fed tag ∨ Started view fed fragment tag) {position : ℕ}
    (hplain : view.part fragment = fragment.text)
    (hmarker : tag.tag <+: fragment.text.drop position) (hle : position ≤ fragment.text.length)
    (hgap : tag.internalStart + tag.tag.length + 1 ≤ acc.currentInternalLength + position) :
    Enclosed view (fed ++ [fragment]) (acc.finishedAt (position + tag.tag.length) true tag) := by
  rw [h.internal] at hgap
  obtain ⟨a, b, front, between, rfl, hblocks, hne, hcut, hstart⟩ := cut_of_open hopen hle hgap
  obtain ⟨back, hback⟩ := hmarker
  refine ⟨a, b ++ [fragment], [], front, between, back, by rw [List.append_assoc, List.append_nil],
    ?_, hne, ?_, ?_, ?_⟩
  · rw [List.forall_mem_append, List.forall_mem_singleton]
    exact ⟨hblocks, hblock⟩
  · calc view.whole (b ++ [fragment])
        = view.whole b ++ (fragment.text.take position ++ fragment.text.drop position) := by
          rw [View.whole_append, View.whole_singleton, hplain, List.take_append_drop]
      _ = front ++ tag.tag ++ between ++ (tag.tag ++ back) := by
          rw [← List.append_assoc, hcut, hback]
      _ = _ := by
          rw [← List.append_assoc]
          rfl
  · rw [start_finishedAt, hstart]
  · have hlength := congrArg List.length hcut
    simp only [List.length_append, List.length_take, min_eq_left hle] at hlength
    rw [length_finishedAt, h.shown, hstart]
    show ((view.whole (a ++ b)).length : ℤ) + ((position + tag.tag.length : ℕ) : ℤ) -
      ((view.whole a ++ front).length : ℕ) = ((tag.tag ++ between ++ tag.tag).length : ℕ)
    simp only [View.whole_append, List.length_append]
    omega

/-! ## Trying to finish tags -/

/-- The item of an open tag was filled when the tag was opened. -/
def Pending (acc : MarkdownTagAccumulator) (index floor : ℕ) (kind : Fin 4) : Prop :=
  ∃ tag, acc.tags[index]? = some tag ∧ tag.internalLength < 0 ∧ TagIndices tag.tag = some kind ∧
    floor ≤ tag.internalStart + tag.tag.length + 1 - acc.currentInternalLength

theorem newlinePosition_cases (text : QString) (offset : ℕ) :
    newlinePosition text offset = kInvalidPosition ∨
      offset ≤ newlinePosition text offset ∧
        ∃ ch, text[newlinePosition text offset]? = some ch ∧ IsNewline ch = true := by
  rw [newlinePosition]
  cases hfind : (text.drop offset).findIdx? fun ch => IsNewline ch with
  | none => exact .inl rfl
  | some index =>
    obtain ⟨hlt, hnewline, -⟩ := List.findIdx?_eq_some_iff_getElem.mp hfind
    refine .inr ⟨Nat.le_add_right _ _, _, ?_, hnewline⟩
    rw [← List.getElem?_drop, List.getElem?_eq_getElem hlt]

theorem isNewline_ne {ch : QChar} (h : IsNewline ch = true) : ch ≠ ObjectReplacementCharacter := by
  rintro rfl
  exact absurd h (by decide)

theorem fillItem_setItem (acc : MarkdownTagAccumulator) (kind : Fin 4) (item : TagSearchItem)
    (text : QString) (edge : Edge) :
    (acc.setItem kind item).fillItem kind text edge =
      acc.setItem kind (item.fill text edge (TagStartExpressions kind)) := by
  simp only [fillItem, MarkdownTagAccumulator.setItem, Function.update_self, Function.update_idem]

theorem setItem_self (acc : MarkdownTagAccumulator) (kind : Fin 4) (item : TagSearchItem) :
    (acc.setItem kind item).items kind = item := Function.update_self _ _ _

/-- What trying to finish an open tag does. -/
theorem tryFinishTag_open {text : QString} {kind : Fin 4} {item : TagSearchItem}
    (hget : acc.tags[index]? = some tag) (hopen : tag.internalLength < 0)
    (hkind : TagIndices tag.tag = some kind)
    (hitem : item = ((acc.items kind).applyOffset
      (tag.internalStart + tag.tag.length + 1 - acc.currentInternalLength)).fill text .Close
        (TagStartExpressions kind)) :
    (kInvalidPosition ≤ item.matchPosition ∧
      acc.tryFinishTag index text = some (acc.setItem kind item)) ∨
    (∃ offset, offset = newlinePosition text (tag.internalStart + 1 - acc.currentInternalLength) ∧
      offset < item.matchPosition ∧
      acc.tryFinishTag index text = some ((acc.setItem kind item).finishTag index offset false)) ∨
    (item.matchPosition < kInvalidPosition ∧
      acc.tryFinishTag index text =
        some (((acc.setItem kind item).finishTag index (item.matchPosition + tag.tag.length)
          true).setItem kind (item.applyOffset (item.matchPosition + tag.tag.length)))) := by
  have hmatch : (acc.setItem kind item).matchPosition kind = item.matchPosition := by
    rw [matchPosition, setItem_self]
  rw [MarkdownTagAccumulator.tryFinishTag, hget]
  simp only
  rw [if_neg (not_le.mpr hopen), hkind]
  simp only [Option.map_some]
  rw [fillItem_setItem, ← hitem]
  cases hnewline : (acc.setItem kind item).finishByNewline index tag text kind with
  | some ended =>
    rw [finishByNewline] at hnewline
    split_ifs at hnewline with htag hlt
    obtain rfl := Option.some.inj hnewline
    rw [hmatch, not_le] at hlt
    exact .inr (.inl ⟨_, rfl, hlt, rfl⟩)
  | none =>
    simp only [hmatch]
    split_ifs with hposition
    · refine .inr (.inr ⟨hposition, ?_⟩)
      rw [show ((acc.setItem kind item).finishTag index (item.matchPosition + tag.tag.length)
        true).items kind = item from setItem_self acc kind item]
    · exact .inl ⟨not_lt.mp hposition, rfl⟩

/-- One tag is tried; no item goes back before `floor` afterwards. -/
theorem Tracking.tryFinishTag (hfits : view.Fits fragment) (hblock : fragment.textTag = [])
    (hfloor : floor ≤ kInvalidPosition)
    (h : Tracking view fed last (Held view fed fragment) acc) (hindex : index < acc.currentFreeTag)
    (hitems : ∀ kind, Ahead fragment.text (TagStartExpressions kind) floor (acc.items kind) ∨
      Pending acc index floor kind ∧
        Ahead fragment.text (TagStartExpressions kind) 0 (acc.items kind)) :
    ∃ after, acc.tryFinishTag index fragment.text = some after ∧
      after.currentFreeTag = acc.currentFreeTag ∧
      Tracking view fed last (Held view fed fragment) after ∧
      ∀ kind, Ahead fragment.text (TagStartExpressions kind) floor (after.items kind) := by
  obtain ⟨tag, hget⟩ : ∃ tag, acc.tags[index]? = some tag :=
    ⟨_, List.getElem?_eq_getElem (hindex.trans_le h.free)⟩
  by_cases hopen : tag.internalLength < 0
  swap
  · refine ⟨acc, ?_, rfl, h, fun kind => (hitems kind).resolve_right ?_⟩
    · rw [MarkdownTagAccumulator.tryFinishTag, hget]
      exact if_pos (not_lt.mp hopen)
    · rintro ⟨⟨other, hother, hless, -⟩, -⟩
      rw [hget, Option.some.injEq] at hother
      exact hopen (hother ▸ hless)
  have hheld : Opening view fed tag ∨ Started view fed fragment tag :=
    (h.held index tag ⟨hindex, hget⟩).resolve_left fun hdone => not_lt.mpr hdone.finished hopen
  obtain ⟨kind, hkind⟩ : ∃ kind, TagIndices tag.tag = some kind := by
    rcases hheld with hopening | hstarted
    · exact hopening.kind
    · exact hstarted.kind
  have htag := tag_of_tagIndices hkind
  have hne := (marker_spec kind).1
  obtain ⟨least, hleast⟩ : ∃ least,
    least = tag.internalStart + tag.tag.length + 1 - acc.currentInternalLength := ⟨_, rfl⟩
  obtain ⟨offsetItem, hoffsetItem⟩ : ∃ offsetItem,
    offsetItem = (acc.items kind).applyOffset least := ⟨_, rfl⟩
  obtain ⟨item, hitem⟩ : ∃ item,
    item = offsetItem.fill fragment.text .Close (TagStartExpressions kind) := ⟨_, rfl⟩
  -- The item of the tag is behind the tag, the others are where they were.
  have haheadFloor : Ahead fragment.text (TagStartExpressions kind) floor offsetItem := by
    rw [hoffsetItem]
    rcases hitems kind with hahead | ⟨⟨other, hother, -, -, hle⟩, hahead⟩
    · exact TagSearchItem.ahead_applyOffset hahead least (le_max_left _ _)
    · rw [hget, Option.some.injEq] at hother
      refine TagSearchItem.ahead_applyOffset hahead least (le_trans ?_ (le_max_right _ _))
      rwa [hleast, hother]
  have hzero : Ahead fragment.text (TagStartExpressions kind) 0 (acc.items kind) := by
    rcases hitems kind with hahead | ⟨-, hahead⟩
    · exact TagSearchItem.ahead_mono hahead (Nat.zero_le _)
    · exact hahead
  have haheadLeast : Ahead fragment.text (TagStartExpressions kind) least offsetItem := by
    rw [hoffsetItem]
    exact TagSearchItem.ahead_applyOffset hzero least (le_max_right _ _)
  have hfilled : Ahead fragment.text (TagStartExpressions kind) floor item := by
    rw [hitem]
    exact TagSearchItem.ahead_fill hne hfloor .Close haheadFloor
  obtain ⟨position, hposition, hplace⟩ := TagSearchItem.fill_spec fragment.text hne .Close
    haheadLeast
  rw [← hitem] at hposition
  have hmatch : item.matchPosition = position := by
    rw [TagSearchItem.matchPosition, hposition, Option.getD_some]
  have hset : ∀ new, Ahead fragment.text (TagStartExpressions kind) floor new → ∀ other,
      Ahead fragment.text (TagStartExpressions other) floor
        (Function.update acc.items kind new other) := by
    intro new hnew other
    by_cases heq : other = kind
    · rw [heq, Function.update_self]
      exact hnew
    · rw [Function.update_of_ne heq]
      refine (hitems other).resolve_right ?_
      rintro ⟨⟨tag', htag', -, hkind', -⟩, -⟩
      rw [hget, Option.some.injEq] at htag'
      rw [← htag', hkind, Option.some.injEq] at hkind'
      exact heq hkind'.symm
  have htracked := h.setItem kind item
  have hinternal : (acc.setItem kind item).currentInternalLength = acc.currentInternalLength := rfl
  have hstartLe : tag.internalStart ≤ acc.currentInternalLength + kInvalidPosition := by
    have := h.internal
    rcases hheld with hopening | hstarted
    · have := hopening.inside
      omega
    · obtain ⟨place, hstart, -, hlt, -⟩ := hstarted.place
      omega
  rw [hoffsetItem, hleast] at hitem
  rcases tryFinishTag_open hget hopen hkind hitem with
    ⟨-, htry⟩ | ⟨offset, hoffset, hlt, htry⟩ | ⟨hlt, htry⟩
  · exact ⟨_, htry, rfl, htracked, hset item hfilled⟩
  · -- The line ends before the marker that would close the tag.
    obtain ⟨hplain, hle, hstart⟩ : view.part fragment = fragment.text ∧
        offset ≤ fragment.text.length ∧
          tag.internalStart ≤ acc.currentInternalLength + offset := by
      rw [hmatch] at hlt
      rcases newlinePosition_cases fragment.text
        (tag.internalStart + 1 - acc.currentInternalLength) with hnone | ⟨hbehind, ch, hch, hnewline⟩
      · obtain ⟨-, hmarker⟩ := hplace (by omega)
        have hlength := hmarker.length_le
        have hpos := List.length_pos_iff.mpr hne
        rw [List.length_drop] at hlength
        exact ⟨hfits.plain_of_marker hmarker, by omega, by omega⟩
      · rw [← hoffset] at hch
        have hinside := (List.getElem?_eq_some_iff.mp hch).1
        exact ⟨hfits.plain (List.mem_of_getElem? hch) (isNewline_ne hnewline), hinside.le, by omega⟩
    refine ⟨_, htry, rfl, htracked.finishTag hindex fun other hother hless => ?_,
      hset item hfilled⟩
    obtain rfl : tag = other := Option.some.inj (hget.symm.trans hother.2)
    have hdone := done_of_stop hfits htracked hheld offset false hplain hle hstart
      fun hno => absurd hno Bool.false_ne_true
    exact ⟨.inl hdone, hdone.finished⟩
  · -- The marker closes the tag.
    rw [hmatch] at hlt htry
    obtain ⟨hbehind, hmarker⟩ := hplace hlt.ne
    have hplain := hfits.plain_of_marker hmarker
    have hlength := hmarker.length_le
    rw [List.length_drop, htag] at hlength
    rw [htag] at hmarker
    have hpos := tag_length_pos hkind
    refine ⟨_, htry, rfl, (htracked.finishTag hindex fun other hother hless => ?_).setItem _ _, ?_⟩
    · obtain rfl : tag = other := Option.some.inj (hget.symm.trans hother.2)
      have hdone := done_of_stop hfits htracked hheld (position + tag.tag.length) true hplain
        (by omega) (by omega) fun _ =>
          enclosed_of_close htracked hblock hheld hplain hmarker (by omega) (by omega)
      exact ⟨.inl hdone, hdone.finished⟩
    · have hnext := hset _ (TagSearchItem.ahead_applyOffset hfilled
        (position + tag.tag.length) (le_max_left _ _))
      intro other
      have heq : (((acc.setItem kind item).finishTag index (position + tag.tag.length)
          true).setItem kind (item.applyOffset (position + tag.tag.length))).items other =
          Function.update acc.items kind (item.applyOffset (position + tag.tag.length)) other := by
        simp only [MarkdownTagAccumulator.setItem, MarkdownTagAccumulator.finishTag,
          Function.update_idem]
      rw [heq]
      exact hnext other


theorem Tracking.tryFinishTags (hfits : view.Fits fragment) (hblock : fragment.textTag = [])
    (hfloor : floor ≤ kInvalidPosition) (count : ℕ)
    (h : Tracking view fed last (Held view fed fragment) acc)
    (hindex : index + count ≤ acc.currentFreeTag)
    (hitems : ∀ kind, Ahead fragment.text (TagStartExpressions kind) floor (acc.items kind)) :
    ∃ after, tryFinishTags fragment.text count index acc = some after ∧
      Tracking view fed last (Held view fed fragment) after ∧
      ∀ kind, Ahead fragment.text (TagStartExpressions kind) floor (after.items kind) := by
  induction count generalizing index acc with
  | zero => exact ⟨acc, rfl, h, hitems⟩
  | succ count ih =>
    have hlt : index < acc.currentFreeTag := by omega
    obtain ⟨next, hnext, hfree, htracked, hahead⟩ :=
      h.tryFinishTag hfits hblock hfloor hlt fun kind => .inl (hitems kind)
    have hle : index + 1 + count ≤ next.currentFreeTag := by omega
    obtain ⟨after, hafter, hrest⟩ := ih htracked hle hahead
    refine ⟨after, ?_, hrest⟩
    rw [MarkdownTagAccumulator.tryFinishTags, hnext]
    exact hafter

/-! ## Opening tags -/

theorem tagIndices_marker : ∀ kind, TagIndices (TagStartExpressions kind).tag = some kind := by
  decide

theorem holds_startTag {offset i : ℕ} {marker : QString} (hfree : acc.currentFreeTag ≤ acc.tags.length)
    (h : (acc.startTag offset marker).Holds i tag) :
    acc.Holds i tag ∨ i = acc.currentFreeTag ∧
      tag = ⟨acc.currentInternalLength + offset, -1, acc.currentAdjustedLength + offset, -1, false,
        marker⟩ := by
  obtain ⟨hlt, hget⟩ := h
  rw [MarkdownTagAccumulator.startTag] at hlt hget
  simp only at hlt hget
  split_ifs at hget with hinside
  · rw [List.getElem?_set] at hget
    split_ifs at hget with heq
    · exact .inr ⟨heq.symm, (Option.some.inj hget).symm⟩
    · exact .inl ⟨by omega, hget⟩
  · have hlength : acc.tags.length = acc.currentFreeTag := by omega
    rcases Nat.lt_succ_iff_lt_or_eq.mp hlt with hbefore | rfl
    · rw [List.getElem?_append_left (by omega)] at hget
      exact .inl ⟨hbefore, hget⟩
    · rw [← hlength, List.getElem?_concat_length] at hget
      exact .inr ⟨rfl, (Option.some.inj hget).symm⟩

theorem getElem?_startTag (offset : ℕ) (marker : QString)
    (hfree : acc.currentFreeTag ≤ acc.tags.length) :
    (acc.startTag offset marker).tags[acc.currentFreeTag]? =
      some ⟨acc.currentInternalLength + offset, -1, acc.currentAdjustedLength + offset, -1, false,
        marker⟩ := by
  rw [MarkdownTagAccumulator.startTag]
  simp only
  split_ifs with hlt
  · exact List.getElem?_set_self hlt
  · rw [show acc.currentFreeTag = acc.tags.length by omega, List.getElem?_concat_length]

/-- The first marker of a fragment opens a tag behind the tags before. -/
theorem Tracking.startTag
    (h : Tracking view fed ((view.whole fed).length + floor) (Held view fed fragment) acc)
    {kind : Fin 4} {position : ℕ} (hfloor : floor ≤ position) (hlt : position < kInvalidPosition)
    (hmarker : (TagStartExpressions kind).tag <+: fragment.text.drop position) :
    Tracking view fed ((view.whole fed).length + (position + 1)) (Held view fed fragment)
      (acc.startTag position (TagStartExpressions kind).tag) := by
  obtain ⟨newTag, hnew⟩ : ∃ newTag : MarkdownTag, newTag = ⟨acc.currentInternalLength + position, -1,
    acc.currentAdjustedLength + position, -1, false, (TagStartExpressions kind).tag⟩ := ⟨_, rfl⟩
  have hstart : view.start newTag = (view.whole fed).length + position := by
    rw [← h.shown, hnew]
    cases view <;> rfl
  have hnewHeld : Started view fed fragment newTag := by
    refine ⟨?_, ⟨kind, ?_⟩, position, ?_, hstart, hlt, ?_⟩
    · rw [hnew]
      exact Int.negSucc_lt_zero 0
    · rw [hnew]
      exact tagIndices_marker kind
    · rw [hnew, ← h.internal]
    · rw [hnew]
      exact hmarker
  have hcases : ∀ i tag, (acc.startTag position (TagStartExpressions kind).tag).Holds i tag →
      acc.Holds i tag ∨ i = acc.currentFreeTag ∧ tag = newTag := by
    intro i tag hholds
    rw [hnew]
    exact holds_startTag h.free hholds
  have hcurrent := h.current
  have hfree := h.free
  constructor
  · exact hcurrent.trans (Nat.le_succ _)
  · rw [MarkdownTagAccumulator.startTag]
    simp only
    split_ifs
    · rw [List.length_set]
      omega
    · rw [List.length_append, List.length_singleton]
      omega
  · exact h.internal
  · rw [← h.shown]
    cases view <;> rfl
  · intro i tag hholds
    rcases hcases i tag hholds with hold | ⟨-, rfl⟩
    · exact h.held i tag hold
    · exact .inr (.inr hnewHeld)
  · intro i tag hholds hbefore
    rcases hcases i tag hholds with hold | ⟨rfl, -⟩
    · exact h.finished i tag hold hbefore
    · exact absurd hbefore (not_lt.mpr hcurrent)
  · intro i j a b hij ha hb
    rcases hcases i a ha with hola | ⟨rfl, -⟩
    · rcases hcases j b hb with holb | ⟨-, rfl⟩
      · exact h.sorted i j a b hij hola holb
      · have := h.starts i a hola
        omega
    · rcases hcases j b hb with holb | ⟨rfl, -⟩
      · exact absurd holb.1 (not_lt.mpr hij.le)
      · exact absurd hij (lt_irrefl _)
  · intro i tag hholds
    rcases hcases i tag hholds with hold | ⟨-, rfl⟩
    · have := h.starts i tag hold
      omega
    · omega

/-- The new tag is behind what was looked at; the item of its kind waits for it to be tried. -/
theorem ahead_startTag {kind : Fin 4} (hfloor : floor ≤ kInvalidPosition)
    (hitems : ∀ kind, Ahead fragment.text (TagStartExpressions kind) floor (acc.items kind))
    (hmin : (acc.fillItems fragment.text).minIndex = some kind) :
    ∃ position, (acc.fillItems fragment.text).matchPosition kind = position ∧ floor ≤ position ∧
      position < kInvalidPosition ∧
      (TagStartExpressions kind).tag <+: fragment.text.drop position ∧
      ∀ other, Ahead fragment.text (TagStartExpressions other) 0
          ((acc.fillItems fragment.text).items other) ∧
        (other ≠ kind → Ahead fragment.text (TagStartExpressions other) (position + 1)
          ((acc.fillItems fragment.text).items other)) := by
  obtain ⟨filled, hfilled⟩ : ∃ filled, filled = acc.fillItems fragment.text := ⟨_, rfl⟩
  have hahead : ∀ other, Ahead fragment.text (TagStartExpressions other) floor
      (filled.items other) := by
    intro other
    rw [hfilled]
    exact TagSearchItem.ahead_fill (marker_spec other).1 hfloor .Open (hitems other)
  have hplace : ∀ other, ∃ position, (filled.items other).position = some position ∧
      filled.matchPosition other = position ∧ (position ≠ kInvalidPosition →
        TagSearchItem.check fragment.text .Open (TagStartExpressions other) position = true) := by
    intro other
    obtain ⟨position, hposition, -⟩ :=
      TagSearchItem.fill_spec fragment.text (marker_spec other).1 .Open (hitems other)
    have hget : (filled.items other).position = some position := by
      rw [hfilled]
      exact hposition
    refine ⟨position, hget, ?_, fun hvalid =>
      TagSearchItem.fill_opens (marker_spec other).1 (hitems other) hposition hvalid⟩
    rw [matchPosition, TagSearchItem.matchPosition, hget, Option.getD_some]
  rw [← hfilled] at hmin ⊢
  obtain ⟨hlt, hall⟩ := minIndex_eq_some hmin
  obtain ⟨position, hget, hmatch, hopens⟩ := hplace kind
  rw [hmatch] at hlt hall
  obtain ⟨hle, -, hmarker⟩ := (hahead kind).position position hget hlt.ne
  refine ⟨position, hmatch, hle, hlt, hmarker, fun other =>
    ⟨TagSearchItem.ahead_mono (hahead other) (Nat.zero_le _), fun hne => ?_⟩⟩
  obtain ⟨place, hget', hmatch', hopens'⟩ := hplace other
  have hplaceLe := hall other
  rw [hmatch'] at hplaceLe
  have hbehind : position + 1 ≤ place := by
    rcases hplaceLe.lt_or_eq with hless | heq
    · exact hless
    · refine absurd (opens_unique ?_ hmarker ?_ (hopens hlt.ne)) hne
      · exact heq ▸ ((hahead other).position place hget' (by omega)).2.2
      · exact heq ▸ hopens' (by omega)
  refine ⟨hbehind.trans ((hahead other).reach place hget'), (hahead other).reach,
    fun found hfound hvalid => ?_, (hahead other).opens⟩
  obtain rfl := Option.some.inj (hget'.symm.trans hfound)
  exact ⟨hbehind, ((hahead other).position place hget' hvalid).2⟩

end MarkdownTagAccumulator

end Bettergram.Ui.Widgets
