import Bettergram.Ui.Widgets.MarkdownTagPlaces

/-! # Fragments of the accumulator

While a fragment is fed, no kind of marker is looked for before the last tag that was
opened, so the tags stand in order; those of the fragments before keep their places.
-/

namespace Bettergram.Ui.Widgets

namespace MarkdownTagAccumulator

open Text (QChar QString charAt)

variable {before text : QString} {fragment : Fragment} {floor last : ℕ}
  {acc after : MarkdownTagAccumulator}

/-! ## What leaves the tags alone -/

theorem Right.setItem (h : Right text last acc) (index : Fin 4) (item : TagSearchItem) :
    Right text last (acc.setItem index item) :=
  ⟨h.current, h.free, h.placed, h.sorted, h.starts⟩

theorem Right.fillItems (h : Right text last acc) (fragment : QString) :
    Right text last (acc.fillItems fragment) :=
  ⟨h.current, h.free, h.placed, h.sorted, h.starts⟩

/-- While a fragment is fed: the tags stand in order, and nothing is looked for before
`floor`. -/
structure Feeding (before : QString) (fragment : Fragment) (floor : ℕ)
    (acc : MarkdownTagAccumulator) : Prop where
  right : Right (before ++ fragment.adjusted) (before.length + floor) acc
  items : ∀ index, ItemRight fragment.text (TagStartExpressions index).tag floor (acc.items index)
  adjusted : acc.currentAdjustedLength = before.length
  inside : floor ≤ fragment.adjusted.length
  valid : floor ≤ kInvalidPosition

theorem Feeding.setItem (h : Feeding before fragment floor acc) {index : Fin 4}
    {item : TagSearchItem}
    (hitem : ItemRight fragment.text (TagStartExpressions index).tag floor item) :
    Feeding before fragment floor (acc.setItem index item) := by
  refine ⟨h.right.setItem index item, fun other => ?_, h.adjusted, h.inside, h.valid⟩
  rw [MarkdownTagAccumulator.setItem]
  simp only
  by_cases heq : other = index
  · rw [heq, Function.update_self]
    exact hitem
  · rw [Function.update_of_ne heq]
    exact h.items other

theorem Feeding.finishTag (h : Feeding before fragment floor acc) {index : ℕ} (offset : ℕ)
    (closed : Bool) (hindex : index < acc.currentFreeTag)
    (hclosed : closed = true → ∀ tag, acc.tags[index]? = some tag →
      tag.tag.length ≤ before.length + offset ∧
      before.length + offset ≤ (before ++ fragment.adjusted).length ∧
      tag.tag <+: (before ++ fragment.adjusted).drop (before.length + offset - tag.tag.length)) :
    Feeding before fragment floor (acc.finishTag index offset closed) := by
  rw [← h.adjusted] at hclosed
  exact ⟨h.right.finishTag hindex hclosed, h.items, h.adjusted, h.inside, h.valid⟩

/-! ## Closing tags -/

theorem finishByNewline_eq_some {index : ℕ} {tag : MarkdownTag} {tagIndex : Fin 4}
    (h : acc.finishByNewline index tag text tagIndex = some after) :
    ∃ position, after = acc.finishTag index position false := by
  rw [finishByNewline] at h
  split_ifs at h
  exact ⟨_, (Option.some.inj h).symm⟩

/-- One tag is tried. -/
theorem Feeding.tryFinishTag (hvalid : fragment.Valid) (h : Feeding before fragment floor acc)
    {index : ℕ} (hindex : index < acc.currentFreeTag)
    (htry : acc.tryFinishTag index fragment.text = some after) :
    Feeding before fragment floor after ∧ after.currentFreeTag = acc.currentFreeTag := by
  rw [MarkdownTagAccumulator.tryFinishTag] at htry
  cases hget : acc.tags[index]? with
  | none =>
    rw [hget] at htry
    obtain rfl := Option.some.inj htry
    exact ⟨h, rfl⟩
  | some tag =>
    rw [hget] at htry
    simp only at htry
    split_ifs at htry with hopen
    · obtain rfl := Option.some.inj htry
      exact ⟨h, rfl⟩
    obtain ⟨tagIndex, htagIndex, rfl⟩ := Option.map_eq_some_iff.mp htry
    obtain ⟨filled, hfilledEq⟩ : ∃ filled, filled = (acc.setItem tagIndex
        ((acc.items tagIndex).applyOffset (tag.internalStart + tag.tag.length + 1 -
          acc.currentInternalLength))).fillItem tagIndex fragment.text .Close := ⟨_, rfl⟩
    have hfilled : Feeding before fragment floor filled := by
      have hoffset := h.setItem (TagSearchItem.itemRight_applyOffset (h.items tagIndex)
        (tag.internalStart + tag.tag.length + 1 - acc.currentInternalLength))
      rw [hfilledEq]
      exact hoffset.setItem (TagSearchItem.itemRight_fill h.valid .Close (hoffset.items tagIndex)).1
    have hfree : filled.currentFreeTag = acc.currentFreeTag := by rw [hfilledEq]; rfl
    have htags : filled.tags = acc.tags := by rw [hfilledEq]; rfl
    rw [← hfilledEq]
    cases hnewline : filled.finishByNewline index tag fragment.text tagIndex with
    | some ended =>
      obtain ⟨position, rfl⟩ := finishByNewline_eq_some hnewline
      exact ⟨hfilled.finishTag position false (hfree ▸ hindex) fun hno => absurd hno Bool.false_ne_true, hfree⟩
    | none =>
      simp only
      split_ifs with hposition
      · have hmarker := tag_of_tagIndices htagIndex
        obtain ⟨position, hfound⟩ : ∃ position, (filled.items tagIndex).position = some position := by
          by_contra hnone
          rw [matchPosition, TagSearchItem.matchPosition,
            Option.eq_none_iff_forall_ne_some.mpr (not_exists.mp hnone)] at hposition
          exact lt_irrefl _ hposition
        have hmatch : filled.matchPosition tagIndex = position := by
          rw [matchPosition, TagSearchItem.matchPosition, hfound, Option.getD_some]
        rw [hmatch] at hposition ⊢
        obtain ⟨hinside, hplace⟩ := marker_append before hvalid tagIndex
          (((hfilled.items tagIndex).position position hfound).2.2 hposition)
        rw [hmarker] at hinside hplace
        have hfinished := hfilled.finishTag (position + tag.tag.length) true
          (hfree ▸ hindex) fun _ other hother => by
            rw [htags, hget] at hother
            obtain rfl := Option.some.inj hother
            rw [List.length_append, ← Nat.add_assoc, Nat.add_sub_cancel]
            exact ⟨by omega, by omega, hplace⟩
        exact ⟨hfinished.setItem (TagSearchItem.itemRight_applyOffset (hfinished.items tagIndex) _),
          hfree⟩
      · exact ⟨hfilled, hfree⟩

theorem Feeding.tryFinishTags (hvalid : fragment.Valid) (count index : ℕ)
    (h : Feeding before fragment floor acc) (hindex : index + count ≤ acc.currentFreeTag)
    (htry : tryFinishTags fragment.text count index acc = some after) :
    Feeding before fragment floor after := by
  induction count generalizing index acc with
  | zero =>
    obtain rfl := Option.some.inj htry
    exact h
  | succ count ih =>
    obtain ⟨next, hnext, hafter⟩ := Option.bind_eq_some_iff.mp htry
    obtain ⟨hfeeding, hfree⟩ := h.tryFinishTag hvalid (by omega) hnext
    exact ih (index + 1) hfeeding (by omega) hafter

/-! ## Opening tags -/

theorem minIndex_fold (f : Fin 4 → ℕ) (l : List (Fin 4)) (result : Option (Fin 4)) (bound : ℕ)
    {found : Option (Fin 4)} {position : ℕ}
    (h : l.foldl (fun (result : Option (Fin 4) × ℕ) i =>
      if f i < result.2 then (some i, f i) else result) (result, bound) = (found, position)) :
    position ≤ bound ∧ (∀ i ∈ l, position ≤ f i) ∧
      ((found = result ∧ position = bound) ∨
        ∃ i, found = some i ∧ position = f i ∧ position < bound) := by
  induction l generalizing result bound with
  | nil =>
    obtain ⟨rfl, rfl⟩ := Prod.mk.inj h
    exact ⟨le_rfl, fun i hi => absurd hi List.not_mem_nil, .inl ⟨rfl, rfl⟩⟩
  | cons i l ih =>
    rw [List.foldl_cons] at h
    simp only at h
    rw [List.forall_mem_cons]
    by_cases hlt : f i < bound
    · rw [if_pos hlt] at h
      obtain ⟨hle, hall, hcases⟩ := ih _ _ h
      refine ⟨by omega, ⟨hle, hall⟩, .inr ?_⟩
      obtain ⟨rfl, rfl⟩ | ⟨j, hj, hposition, hltj⟩ := hcases
      · exact ⟨i, rfl, rfl, hlt⟩
      · exact ⟨j, hj, hposition, by omega⟩
    · rw [if_neg hlt] at h
      obtain ⟨hle, hall, hcases⟩ := ih _ _ h
      exact ⟨hle, ⟨by omega, hall⟩, hcases⟩

theorem minIndex_eq_some {min : Fin 4} (h : acc.minIndex = some min) :
    acc.matchPosition min < kInvalidPosition ∧
      ∀ index, acc.matchPosition min ≤ acc.matchPosition index := by
  rw [minIndex] at h
  simp only at h
  obtain ⟨⟨found, position⟩, hfold⟩ : ∃ result, (List.finRange 4).foldl
      (fun (result : Option (Fin 4) × ℕ) i =>
        if acc.matchPosition i < result.2 then (some i, acc.matchPosition i) else result)
      (none, kInvalidPosition) = result := ⟨_, rfl⟩
  rw [hfold] at h
  obtain ⟨-, hall, ⟨hnone, -⟩ | ⟨i, hi, rfl, hlt⟩⟩ := minIndex_fold _ _ _ _ hfold
  · rw [hnone] at h
    cases h
  · obtain rfl := Option.some.inj (hi.symm.trans h)
    exact ⟨hlt, fun index => hall index (List.mem_finRange index)⟩

/-- The first marker opens a tag; nothing before it is looked for any more. -/
theorem Feeding.startTag (hvalid : fragment.Valid) (h : Feeding before fragment floor acc)
    {min : Fin 4} (hmin : (acc.fillItems fragment.text).minIndex = some min) :
    Feeding before fragment ((acc.fillItems fragment.text).matchPosition min)
      ((acc.fillItems fragment.text).startTag ((acc.fillItems fragment.text).matchPosition min)
        (TagStartExpressions min).tag) := by
  obtain ⟨filled, hfilled⟩ : ∃ filled, filled = acc.fillItems fragment.text := ⟨_, rfl⟩
  have hright := h.right.fillItems fragment.text
  have hadjusted : filled.currentAdjustedLength = before.length := by
    rw [hfilled]
    exact h.adjusted
  have hitems : ∀ index, ItemRight fragment.text (TagStartExpressions index).tag floor
      (filled.items index) ∧ ∃ position, (filled.items index).position = some position ∧
        filled.matchPosition index = position := by
    intro index
    obtain ⟨hitem, hsome⟩ := TagSearchItem.itemRight_fill h.valid .Open (h.items index)
    obtain ⟨position, hposition⟩ := Option.isSome_iff_exists.mp hsome
    have hget : (filled.items index).position = some position := by
      rw [hfilled]
      exact hposition
    refine ⟨by rw [hfilled]; exact hitem, position, hget, ?_⟩
    rw [matchPosition, TagSearchItem.matchPosition, hget, Option.getD_some]
  rw [← hfilled] at hmin hright ⊢
  obtain ⟨hlt, hall⟩ := minIndex_eq_some hmin
  obtain ⟨hitem, position, hget, hmatch⟩ := hitems min
  rw [hmatch] at hlt hall ⊢
  obtain ⟨hfloor, -, hmarker⟩ := hitem.position position hget
  obtain ⟨hinside, hplace⟩ := marker_append before hvalid min (hmarker hlt)
  have hstart : Right (before ++ fragment.adjusted) (before.length + position)
      (filled.startTag position (TagStartExpressions min).tag) := by
    rw [← hadjusted]
    refine hright.startTag ?_ ?_ ?_
    · omega
    · rw [List.length_append]
      omega
    · rw [hadjusted]
      exact hplace
  refine ⟨hstart, fun index => ?_, hadjusted, by omega, hlt.le⟩
  obtain ⟨hother, position', hget', hmatch'⟩ := hitems index
  have hle := hall index
  rw [hmatch'] at hle
  have hother' := hother.position position' hget'
  refine ⟨hle.trans hother'.2.1, fun place hplace' => ?_⟩
  obtain rfl := Option.some.inj (hget'.symm.trans hplace')
  exact ⟨hle, hother'.2⟩

/-! ## Whole fragments -/

theorem Feeding.feedLoop (hvalid : fragment.Valid) (rounds tryFinish : ℕ)
    (h : Feeding before fragment floor acc) (hfinish : tryFinish ≤ acc.currentFreeTag)
    (hloop : feedLoop fragment.text rounds tryFinish acc = some after) :
    ∃ floor, Feeding before fragment floor after := by
  induction rounds generalizing floor tryFinish acc with
  | zero => cases hloop
  | succ rounds ih =>
    rw [MarkdownTagAccumulator.feedLoop] at hloop
    obtain ⟨tried, htried, hloop⟩ := Option.bind_eq_some_iff.mp hloop
    have hfeeding := h.tryFinishTags hvalid _ tryFinish (by omega) htried
    simp only at hloop
    cases hmin : (tried.fillItems fragment.text).minIndex with
    | none =>
      rw [hmin] at hloop
      obtain rfl := Option.some.inj hloop
      exact ⟨floor, hfeeding.right.fillItems _, fun index =>
        (TagSearchItem.itemRight_fill h.valid .Open (hfeeding.items index)).1, hfeeding.adjusted,
        hfeeding.inside, hfeeding.valid⟩
    | some min =>
      rw [hmin] at hloop
      exact ih _ (hfeeding.startTag hvalid hmin) (Nat.le_succ _) hloop

/-! ## Whole texts -/

theorem Right.mono (h : Right text last acc) (later : ℕ) (hle : last ≤ later) :
    Right text later acc :=
  ⟨h.current, h.free, h.placed, h.sorted, fun tag htag => (h.starts tag htag).trans hle⟩

theorem Right.append (h : Right text last acc) (more : QString) : Right (text ++ more) last acc :=
  ⟨h.current, h.free, fun tag htag => (h.placed tag htag).append more, h.sorted, h.starts⟩

/-- All tags are finished, one after the other. -/
theorem Right.finishTags_fold (h : Right text last acc) (count : ℕ)
    (hcount : acc.currentTag + count = acc.currentFreeTag)
    (heq : after = (List.range' acc.currentTag count).foldl
      (fun acc index => acc.finishTag index 0 false) acc) :
    Right text last after ∧ after.currentTag = acc.currentFreeTag ∧
      after.currentFreeTag = acc.currentFreeTag ∧
      after.currentAdjustedLength = acc.currentAdjustedLength := by
  induction count generalizing acc with
  | zero =>
    subst heq
    exact ⟨h, hcount, rfl, rfl⟩
  | succ count ih =>
    have hfinished : Right text last (acc.finishTag acc.currentTag 0 false) :=
      h.finishTag (by omega) fun hno => absurd hno Bool.false_ne_true
    have hcurrent : (acc.finishTag acc.currentTag 0 false).currentTag = acc.currentTag + 1 :=
      if_pos rfl
    have hfree : (acc.finishTag acc.currentTag 0 false).currentFreeTag = acc.currentFreeTag := rfl
    rw [List.range'_succ, List.foldl_cons, ← hcurrent] at heq
    have hnext := ih hfinished (by omega) heq
    exact hnext

theorem Right.finishTags (h : Right text last acc) :
    Right text last acc.finishTags ∧ acc.finishTags.currentTag = acc.currentFreeTag ∧
      acc.finishTags.currentFreeTag = acc.currentFreeTag ∧
      acc.finishTags.currentAdjustedLength = acc.currentAdjustedLength := by
  have := h.current
  exact h.finishTags_fold _ (by omega) rfl

/-- What is known before and after each fragment. -/
structure Fed (text : QString) (acc : MarkdownTagAccumulator) : Prop where
  right : Right text text.length acc
  adjusted : acc.currentAdjustedLength = text.length

theorem Fed.feed (hvalid : fragment.Valid) (h : Fed text acc) {rounds : ℕ}
    (hfeed : acc.feed rounds fragment = some after) : Fed (text ++ fragment.adjusted) after := by
  rw [MarkdownTagAccumulator.feed] at hfeed
  simp only at hfeed
  have hlength : text.length ≤ (text ++ fragment.adjusted).length := by
    rw [List.length_append]
    omega
  split_ifs at hfeed with htag
  · obtain rfl := Option.some.inj hfeed
    obtain ⟨hright, -, -, hadjusted⟩ := h.right.finishTags
    have hlast := (hright.append fragment.adjusted).mono _ hlength
    refine ⟨⟨hlast.current, hlast.free, hlast.placed, hlast.sorted, hlast.starts⟩, ?_⟩
    rw [List.length_append, hadjusted, h.adjusted]
  · obtain ⟨looped, hloop, rfl⟩ := Option.map_eq_some_iff.mp hfeed
    have hright := h.right.append fragment.adjusted
    have hstart : Feeding text fragment 0 { acc with items := fun _ => { } } :=
      ⟨⟨hright.current, hright.free, hright.placed, hright.sorted, hright.starts⟩,
        fun index => ⟨Nat.zero_le _, fun position hposition => by cases hposition⟩, h.adjusted,
        Nat.zero_le _, Nat.zero_le _⟩
    obtain ⟨floor, hfeeding⟩ := hstart.feedLoop hvalid rounds acc.currentTag hright.current hloop
    have hinside := hfeeding.inside
    have hlast := hfeeding.right.mono (text ++ fragment.adjusted).length <| by
      rw [List.length_append]
      omega
    refine ⟨⟨hlast.current, hlast.free, hlast.placed, hlast.sorted, hlast.starts⟩, ?_⟩
    rw [List.length_append, hfeeding.adjusted]

theorem Fed.foldlM {rounds : ℕ} {fragments : List Fragment} (h : Fed text acc)
    (hvalid : ∀ fragment ∈ fragments, fragment.Valid)
    (hfeed : fragments.foldlM (MarkdownTagAccumulator.feed rounds) acc = some after) :
    Fed (text ++ fragments.flatMap Fragment.adjusted) after := by
  induction fragments generalizing text acc with
  | nil =>
    obtain rfl := Option.some.inj hfeed
    rwa [List.flatMap_nil, List.append_nil]
  | cons fragment fragments ih =>
    rw [List.forall_mem_cons] at hvalid
    rw [List.foldlM_cons] at hfeed
    obtain ⟨next, hnext, hafter⟩ := Option.bind_eq_some_iff.mp hfeed
    have := ih (h.feed hvalid.1 hnext) hvalid.2 hafter
    rwa [List.append_assoc, ← List.flatMap_cons] at this

end MarkdownTagAccumulator

/-- The tags of a text stand in order, each at its places. -/
theorem markdownTags_spec {rounds : ℕ} {before tags : List MarkdownTag} {fragments : List Fragment}
    (hvalid : ∀ fragment ∈ fragments, fragment.Valid)
    (h : markdownTags rounds before fragments = some tags) :
    tags.Pairwise (fun a b => a.adjustedStart ≤ b.adjustedStart) ∧
      ∀ tag ∈ tags, Placed (fragments.flatMap Fragment.adjusted) tag := by
  obtain ⟨acc, hacc, rfl⟩ := Option.map_eq_some_iff.mp h
  have hstart : MarkdownTagAccumulator.Fed [] (MarkdownTagAccumulator.start before) :=
    ⟨⟨le_rfl, Nat.zero_le _, fun _ htag => absurd htag List.not_mem_nil, List.Pairwise.nil,
      fun _ htag => absurd htag List.not_mem_nil⟩, rfl⟩
  have hfed := hstart.foldlM hvalid hacc
  obtain ⟨hright, hcurrent, hfree, -⟩ := hfed.right.finishTags
  have hfinish : acc.finish = acc.finishTags.opened := by
    rw [MarkdownTagAccumulator.finish, MarkdownTagAccumulator.opened, hcurrent, hfree]
  rw [hfinish]
  exact ⟨hright.sorted, hright.placed⟩

end Bettergram.Ui.Widgets
