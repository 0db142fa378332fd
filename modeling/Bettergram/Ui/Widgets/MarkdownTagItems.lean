import Bettergram.Ui.Widgets.MarkdownTagFeed

/-! # Search items of the markdown tags

An item never goes back, and only one kind of marker opens a tag at a place, so
each tag of a fragment starts behind the one before it.
-/

namespace Bettergram.Ui.Widgets

open Text (QChar QString charAt)

variable {text : QString} {edge : Edge} {expression : TagStartExpression} {floor : ℕ}

/-! ## Markers at one place -/

theorem head_of_markers : ∀ i j : Fin 4,
    (TagStartExpressions i).tag.head? = (TagStartExpressions j).tag.head? →
      i = j ∨ (i = 2 ∧ j = 3) ∨ (i = 3 ∧ j = 2) := by
  decide

theorem head_of_prefix {tag : QString} (hne : tag ≠ []) (h : tag <+: text) :
    text.head? = tag.head? := by
  obtain ⟨rest, rfl⟩ := h
  exact List.head?_append_of_ne_nil _ hne

/-- One backtick does not open where three stand. -/
theorem code_not_open {position : ℕ} (h : kTagPre <+: text.drop position) :
    TagSearchItem.check text .Open (TagStartExpressions 2) position = false := by
  obtain ⟨rest, hrest⟩ := h
  have hlength := congrArg List.length hrest
  rw [List.length_append, List.length_drop, show kTagPre.length = 3 from rfl] at hlength
  have hafter : charAt text (position + 1) = 96 := by
    rw [charAt, List.getD_eq_getElem?_getD, ← List.getElem?_drop, ← hrest]
    rfl
  have hlt : position + 1 < text.length := by omega
  simp [TagSearchItem.check, TagStartExpressions, kTagCode, hlt, hafter]

/-- Only one kind of tag opens at a place. -/
theorem opens_unique {i j : Fin 4} {position : ℕ}
    (hi : (TagStartExpressions i).tag <+: text.drop position)
    (hj : (TagStartExpressions j).tag <+: text.drop position)
    (hiOpen : TagSearchItem.check text .Open (TagStartExpressions i) position = true)
    (hjOpen : TagSearchItem.check text .Open (TagStartExpressions j) position = true) : i = j := by
  have hhead : (TagStartExpressions i).tag.head? = (TagStartExpressions j).tag.head? := by
    rw [← head_of_prefix (marker_spec i).1 hi, ← head_of_prefix (marker_spec j).1 hj]
  rcases head_of_markers i j hhead with heq | ⟨rfl, rfl⟩ | ⟨rfl, rfl⟩
  · exact heq
  · rw [code_not_open hj] at hiOpen
    cases hiOpen
  · rw [code_not_open hi] at hjOpen
    cases hjOpen

/-! ## Items that do not go back -/

/-- An item is not before `floor`; where it has a place a marker stands, and it opens a tag if
that was checked. -/
structure Ahead (text : QString) (expression : TagStartExpression) (floor : ℕ)
    (item : TagSearchItem) : Prop where
  offset : floor ≤ item.offset
  reach : ∀ position, item.position = some position → position ≤ item.offset
  position : ∀ position, item.position = some position → position ≠ kInvalidPosition →
    floor ≤ position ∧ position < item.offset ∧ expression.tag <+: text.drop position
  opens : item.checkedOpen = true → ∀ position, item.position = some position →
    position ≠ kInvalidPosition → TagSearchItem.check text .Open expression position = true

namespace TagSearchItem

variable {item : TagSearchItem}

theorem ahead_start (text : QString) (expression : TagStartExpression) :
    Ahead text expression 0 { } :=
  ⟨le_rfl, fun _ h => absurd h (Option.some_ne_none _).symm,
    fun _ h => absurd h (Option.some_ne_none _).symm, fun h => absurd h Bool.false_ne_true⟩

theorem ahead_mono {least : ℕ} (h : Ahead text expression floor item) (hle : least ≤ floor) :
    Ahead text expression least item :=
  ⟨hle.trans h.offset, h.reach, fun position hposition hvalid =>
    (h.position position hposition hvalid).imp_left hle.trans, h.opens⟩

theorem ahead_applyOffset (h : Ahead text expression floor item) {least : ℕ} (offset : ℕ)
    (hle : least ≤ max floor offset) : Ahead text expression least (item.applyOffset offset) := by
  have hkept : ∀ position, (item.applyOffset offset).position = some position →
      item.position = some position ∧ offset ≤ position := by
    intro position hposition
    simpa using Option.filter_eq_some_iff.mp hposition
  have hoffset := h.offset
  have hmax : (item.applyOffset offset).offset = max item.offset offset := rfl
  refine ⟨by omega, fun position hposition => ?_, fun position hposition hvalid => ?_,
    fun hchecked position hposition hvalid => ?_⟩
  · have := h.reach position (hkept position hposition).1
    omega
  · obtain ⟨hfloor, hlt, hmarker⟩ := h.position position (hkept position hposition).1 hvalid
    have := (hkept position hposition).2
    exact ⟨by omega, by omega, hmarker⟩
  · exact h.opens hchecked position (hkept position hposition).1 hvalid

/-- A marker that is found fits. -/
theorem search_check (text : QString) (edge : Edge) (expression : TagStartExpression)
    (rounds offset : ℕ) {position next : ℕ}
    (h : search text edge expression rounds offset = (position, next)) :
    (position = kInvalidPosition ∧ next = kInvalidPosition) ∨
      (next = position + expression.tag.length ∧ check text edge expression position = true) := by
  induction rounds generalizing offset with
  | zero => exact .inl (Prod.mk.inj h.symm)
  | succ rounds ih =>
    rw [search] at h
    cases hindex : indexOf text expression.tag offset with
    | none =>
      rw [hindex] at h
      exact .inl (Prod.mk.inj h.symm)
    | some found =>
      rw [hindex] at h
      simp only at h
      split_ifs at h with hcheck
      · obtain ⟨rfl, rfl⟩ := Prod.mk.inj h
        exact .inr ⟨rfl, hcheck⟩
      · exact ih _ h

/-- What an item finds is not before where it looks from. -/
theorem searched_spec (text : QString) (hne : expression.tag ≠ []) (hoffset : floor ≤ item.offset)
    (edge : Edge) :
    ∃ position, (searched text edge expression item).position = some position ∧
      position ≤ (searched text edge expression item).offset ∧
      (position ≠ kInvalidPosition → floor ≤ position ∧
        position < (searched text edge expression item).offset ∧
        expression.tag <+: text.drop position ∧ check text edge expression position = true) ∧
      (position = kInvalidPosition → kInvalidPosition ≤
        (searched text edge expression item).offset) ∧
      ((searched text edge expression item).checkedOpen = true →
        position = kInvalidPosition ∨ edge = .Open) := by
  obtain ⟨⟨position, next⟩, hsearch⟩ : ∃ found,
      search text edge expression (text.length + 1) item.offset = found := ⟨_, rfl⟩
  have hpos := List.length_pos_iff.mpr hne
  rw [searched, hsearch]
  simp only
  split_ifs with hinvalid
  · have hnext : position ≤ next := by
      rcases search_spec text edge expression _ _ hsearch with ⟨rfl, rfl⟩ | ⟨-, hle, -⟩
      · exact le_rfl
      · exact hle
    exact ⟨position, rfl, hnext, fun hvalid => absurd hinvalid hvalid,
      fun _ => hinvalid ▸ hnext, fun _ => .inl hinvalid⟩
  · obtain ⟨hle, -, hmarker⟩ :=
      (search_spec text edge expression _ _ hsearch).resolve_left fun h => hinvalid h.1
    obtain ⟨rfl, hcheck⟩ :=
      (search_check text edge expression _ _ hsearch).resolve_left fun h => hinvalid h.1
    refine ⟨position, by rw [setChecked_position], ?_, fun _ => ?_, fun h => absurd h hinvalid,
      fun hchecked => .inr ?_⟩
    · rw [setChecked_offset]
      simp only
      omega
    · rw [setChecked_offset]
      exact ⟨hoffset.trans hle, by simp only; omega, hmarker, hcheck⟩
    · cases edge with
      | Open => rfl
      | Close => cases hchecked

theorem ahead_searched (hne : expression.tag ≠ []) (hfloor : floor ≤ kInvalidPosition)
    (h : floor ≤ item.offset) (edge : Edge) :
    Ahead text expression floor (searched text edge expression item) := by
  obtain ⟨position, hposition, hreach, hvalid, hinvalid, hopen⟩ :=
    searched_spec text hne h edge
  refine ⟨?_, fun other hother => ?_, fun other hother => ?_, fun hchecked other hother hne => ?_⟩
  · by_cases heq : position = kInvalidPosition
    · exact hfloor.trans (hinvalid heq)
    · have := hvalid heq
      omega
  all_goals obtain rfl := Option.some.inj (hposition.symm.trans hother)
  · exact hreach
  · intro hne
    obtain ⟨hle, hlt, hmarker, -⟩ := hvalid hne
    exact ⟨hle, hlt, hmarker⟩
  · obtain rfl := (hopen hchecked).resolve_left hne
    exact (hvalid hne).2.2.2

theorem ahead_setChecked (h : Ahead text expression floor item)
    (hcheck : edge = .Open → ∀ position, item.position = some position →
      check text .Open expression position = true) :
    Ahead text expression floor (item.setChecked edge) := by
  refine ⟨by rw [setChecked_offset]; exact h.offset, ?_, ?_, ?_⟩
  · rw [setChecked_position, setChecked_offset]
    exact h.reach
  · rw [setChecked_position, setChecked_offset]
    exact h.position
  · rw [setChecked_position]
    intro hchecked position hposition hvalid
    cases edge with
    | Open => exact hcheck rfl position hposition
    | Close => exact h.opens hchecked position hposition hvalid

theorem ahead_fill (hne : expression.tag ≠ []) (hfloor : floor ≤ kInvalidPosition) (edge : Edge)
    (h : Ahead text expression floor item) :
    Ahead text expression floor (item.fill text edge expression) := by
  cases hposition : item.position with
  | none =>
    rw [fill, hposition]
    exact ahead_searched hne hfloor h.offset edge
  | some position =>
    rw [fill, hposition]
    simp only
    split_ifs with hchecked hcheck
    · exact h
    · refine ahead_setChecked h fun hedge other hother => ?_
      obtain rfl := Option.some.inj (hposition.symm.trans hother)
      rw [← hedge]
      exact hcheck
    · exact ahead_searched hne hfloor h.offset edge

/-- An item that was filled has a place, not before its offset. -/
theorem fill_spec (text : QString) (hne : expression.tag ≠ []) (edge : Edge) {least : ℕ}
    (h : Ahead text expression least item) :
    ∃ position, (item.fill text edge expression).position = some position ∧
      (position ≠ kInvalidPosition → least ≤ position ∧ expression.tag <+: text.drop position) := by
  have hsearched : ∃ position, (searched text edge expression item).position = some position ∧
      (position ≠ kInvalidPosition →
        least ≤ position ∧ expression.tag <+: text.drop position) := by
    obtain ⟨position, hposition, -, hvalid, -⟩ := searched_spec text hne h.offset edge
    exact ⟨position, hposition, fun hne => ⟨(hvalid hne).1, (hvalid hne).2.2.1⟩⟩
  cases hposition : item.position with
  | none =>
    rw [fill, hposition]
    exact hsearched
  | some position =>
    have hold : position ≠ kInvalidPosition →
        least ≤ position ∧ expression.tag <+: text.drop position := fun hne =>
      have hplace := h.position position hposition hne
      ⟨hplace.1, hplace.2.2⟩
    rw [fill, hposition]
    simp only
    split_ifs
    · exact ⟨position, hposition, hold⟩
    · exact ⟨position, by rw [setChecked_position, hposition], hold⟩
    · exact hsearched

/-- An item that was filled to open a tag opens one at its place. -/
theorem fill_opens (hne : expression.tag ≠ []) (h : Ahead text expression floor item)
    {position : ℕ} (hposition : (item.fill text .Open expression).position = some position)
    (hvalid : position ≠ kInvalidPosition) : check text .Open expression position = true := by
  have hsearched : (searched text .Open expression item).position = some position →
      check text .Open expression position = true := fun hfound => by
    obtain ⟨other, hother, -, hspec, -⟩ := searched_spec text hne h.offset .Open
    obtain rfl := Option.some.inj (hother.symm.trans hfound)
    exact (hspec hvalid).2.2.2
  cases hold : item.position with
  | none =>
    rw [fill, hold] at hposition
    exact hsearched hposition
  | some other =>
    rw [fill, hold] at hposition
    simp only at hposition
    split_ifs at hposition with hchecked hcheck
    · exact h.opens hchecked position hposition hvalid
    · rw [setChecked_position, hold] at hposition
      obtain rfl := Option.some.inj hposition
      exact hcheck
    · exact hsearched hposition

end TagSearchItem

end Bettergram.Ui.Widgets
