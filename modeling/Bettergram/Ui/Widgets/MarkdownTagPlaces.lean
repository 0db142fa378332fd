import Bettergram.Ui.Widgets.MarkdownTagAccumulator
import Mathlib.Data.Int.Init
import Mathlib.Order.Lattice

/-! # Places of the markdown tags

The tags start one after the other. Where a tag starts in the text stands its
marker, and where it ends too if it is closed.
-/

namespace Bettergram.Ui.Widgets

open Text (QChar QString charAt)

variable {text tag : QString} {edge : Edge} {expression : TagStartExpression} {floor : ℕ}

/-! ## Markers found in a fragment -/

/-- An item does not go back before `floor`, and a place it has is the place of a marker. -/
structure ItemRight (text tag : QString) (floor : ℕ) (item : TagSearchItem) : Prop where
  offset : floor ≤ item.offset
  position : ∀ position, item.position = some position → floor ≤ position ∧
    position ≤ item.offset ∧ (position < kInvalidPosition → tag <+: text.drop position)

theorem indexOf_eq_some {offset position : ℕ} (h : indexOf text tag offset = some position) :
    offset ≤ position ∧ tag <+: text.drop position := by
  obtain ⟨hstartsWith, hmem⟩ := And.intro (List.find?_some h) (List.mem_of_find?_eq_some h)
  rw [List.mem_range'_1] at hmem
  exact ⟨hmem.1, List.isPrefixOf_iff_prefix.mp hstartsWith⟩

namespace TagSearchItem

variable {item : TagSearchItem}

theorem search_spec (text : QString) (edge : Edge) (expression : TagStartExpression)
    (rounds offset : ℕ) {position next : ℕ}
    (h : search text edge expression rounds offset = (position, next)) :
    (position = kInvalidPosition ∧ next = kInvalidPosition) ∨
      (offset ≤ position ∧ position ≤ next ∧ expression.tag <+: text.drop position) := by
  induction rounds generalizing offset with
  | zero => exact .inl (Prod.mk.inj h.symm)
  | succ rounds ih =>
    rw [search] at h
    cases hindex : indexOf text expression.tag offset with
    | none =>
      rw [hindex] at h
      exact .inl (Prod.mk.inj h.symm)
    | some found =>
      obtain ⟨hle, hmarker⟩ := indexOf_eq_some hindex
      rw [hindex] at h
      simp only at h
      split_ifs at h
      · obtain ⟨rfl, rfl⟩ := Prod.mk.inj h
        exact .inr ⟨hle, Nat.le_add_right _ _, hmarker⟩
      · refine (ih _ h).imp_right fun hbehind => ⟨?_, hbehind.2⟩
        omega

@[simp] theorem setChecked_offset (item : TagSearchItem) (edge : Edge) :
    (item.setChecked edge).offset = item.offset := by
  cases edge <;> rfl

@[simp] theorem setChecked_position (item : TagSearchItem) (edge : Edge) :
    (item.setChecked edge).position = item.position := by
  cases edge <;> rfl

theorem itemRight_setChecked (h : ItemRight text tag floor item) (edge : Edge) :
    ItemRight text tag floor (item.setChecked edge) :=
  ⟨by rw [setChecked_offset]; exact h.offset, by
    rw [setChecked_position, setChecked_offset]
    exact h.position⟩

theorem itemRight_applyOffset (h : ItemRight text tag floor item) (offset : ℕ) :
    ItemRight text tag floor (item.applyOffset offset) := by
  refine ⟨h.offset.trans (le_max_left _ _), fun position hposition => ?_⟩
  obtain ⟨hposition, -⟩ := Option.filter_eq_some_iff.mp hposition
  obtain ⟨hfloor, hoffset, hmarker⟩ := h.position position hposition
  exact ⟨hfloor, hoffset.trans (le_max_left _ _), hmarker⟩

theorem itemRight_searched (hfloor : floor ≤ kInvalidPosition) (edge : Edge)
    (h : ItemRight text expression.tag floor item) :
    ItemRight text expression.tag floor (searched text edge expression item) ∧
      (searched text edge expression item).position.isSome := by
  obtain ⟨⟨position, next⟩, hsearch⟩ : ∃ found,
      search text edge expression (text.length + 1) item.offset = found := ⟨_, rfl⟩
  have hoffset := h.offset
  have hright : ItemRight text expression.tag floor ⟨next, some position, false, false⟩ := by
    obtain ⟨rfl, rfl⟩ | ⟨hle, hnext, hmarker⟩ := search_spec text edge expression _ _ hsearch
    · refine ⟨hfloor, fun place hplace => ?_⟩
      obtain rfl := Option.some.inj hplace
      exact ⟨hfloor, le_rfl, fun hlt => absurd hlt (lt_irrefl _)⟩
    · refine ⟨by simp only; omega, fun place hplace => ?_⟩
      obtain rfl := Option.some.inj hplace
      exact ⟨hoffset.trans hle, hnext, fun _ => hmarker⟩
  rw [searched, hsearch]
  simp only
  split_ifs
  · exact ⟨itemRight_setChecked (itemRight_setChecked hright _) _, by simp⟩
  · exact ⟨itemRight_setChecked hright _, by simp⟩

theorem itemRight_fill (hfloor : floor ≤ kInvalidPosition) (edge : Edge)
    (h : ItemRight text expression.tag floor item) :
    ItemRight text expression.tag floor (item.fill text edge expression) ∧
      (item.fill text edge expression).position.isSome := by
  rw [fill]
  split
  · rename_i position hposition
    split_ifs
    · exact ⟨h, by rw [hposition]; rfl⟩
    · exact ⟨itemRight_setChecked h edge, by rw [setChecked_position, hposition]; rfl⟩
    · exact itemRight_searched hfloor edge h
  · exact itemRight_searched hfloor edge h

end TagSearchItem

/-! ## Markers in the text -/

theorem tag_of_tagIndices {index : Fin 4} (h : TagIndices tag = some index) :
    (TagStartExpressions index).tag = tag := by
  simpa using List.find?_some h

/-- A marker is not empty, and has no characters that stand for emoji. -/
theorem marker_spec : ∀ index : Fin 4, (TagStartExpressions index).tag ≠ [] ∧
    ObjectReplacementCharacter ∉ (TagStartExpressions index).tag := by
  decide

/-- A marker found in a fragment is a marker of the text. -/
theorem marker_append (before : QString) {fragment : Fragment} (hvalid : fragment.Valid)
    (index : Fin 4) {position : ℕ}
    (h : (TagStartExpressions index).tag <+: fragment.text.drop position) :
    position + (TagStartExpressions index).tag.length ≤ fragment.adjusted.length ∧
      (TagStartExpressions index).tag <+:
        (before ++ fragment.adjusted).drop (before.length + position) := by
  obtain ⟨hne, hnotMem⟩ := marker_spec index
  have hlength := h.length_le
  have hpos := List.length_pos_iff.mpr hne
  rw [List.length_drop] at hlength
  obtain hplain | hemoji := hvalid.plain
  · rw [hplain, List.drop_length_add_append]
    exact ⟨by omega, h⟩
  · obtain ⟨ch, hch⟩ := List.exists_mem_of_ne_nil _ hne
    rw [← hemoji ch (List.mem_of_mem_drop (h.subset hch))] at hnotMem
    exact absurd hch hnotMem

/-- A tag starts with its marker, and ends with it if it is closed. -/
structure Placed (text : QString) (tag : MarkdownTag) : Prop where
  inside : tag.adjustedStart + tag.tag.length ≤ text.length
  opening : tag.tag <+: text.drop tag.adjustedStart
  closing : tag.closed = true → ∃ stop : ℕ, tag.adjustedStart + tag.adjustedLength = stop ∧
    tag.tag.length ≤ stop ∧ stop ≤ text.length ∧ tag.tag <+: text.drop (stop - tag.tag.length)

theorem prefix_drop_append {position : ℕ} (hle : position ≤ text.length) (more : QString)
    (h : tag <+: text.drop position) : tag <+: (text ++ more).drop position := by
  rw [List.drop_append_of_le_length hle]
  exact h.trans (List.prefix_append _ _)

theorem Placed.append {tag : MarkdownTag} (h : Placed text tag) (more : QString) :
    Placed (text ++ more) tag := by
  have hinside := h.inside
  refine ⟨?_, prefix_drop_append (by omega) more h.opening, fun hclosed => ?_⟩
  · rw [List.length_append]
    omega
  · obtain ⟨stop, hstop, hlength, hle, hmarker⟩ := h.closing hclosed
    refine ⟨stop, hstop, hlength, ?_, prefix_drop_append (by omega) more hmarker⟩
    rw [List.length_append]
    omega

/-! ## The tags of the accumulator -/

namespace MarkdownTagAccumulator

/-- The tags of the text so far. -/
def opened (acc : MarkdownTagAccumulator) : List MarkdownTag := acc.tags.take acc.currentFreeTag

/-- The tags of a text stand in order, up to `last`. -/
structure Right (text : QString) (last : ℕ) (acc : MarkdownTagAccumulator) : Prop where
  current : acc.currentTag ≤ acc.currentFreeTag
  free : acc.currentFreeTag ≤ acc.tags.length
  placed : ∀ tag ∈ acc.opened, Placed text tag
  sorted : acc.opened.Pairwise fun a b => a.adjustedStart ≤ b.adjustedStart
  starts : ∀ tag ∈ acc.opened, tag.adjustedStart ≤ last

variable {acc : MarkdownTagAccumulator} {last : ℕ}

theorem modify_map_eq {α β : Type} {f : α → α} {g : α → β} (h : ∀ a, g (f a) = g a) (l : List α)
    (index : ℕ) : (l.modify index f).map g = l.map g := by
  induction l generalizing index with
  | nil => rw [List.modify_nil]
  | cons a l ih =>
    cases index with
    | zero => rw [List.modify_zero_cons, List.map_cons, List.map_cons, h]
    | succ index => rw [List.modify_succ_cons, List.map_cons, List.map_cons, ih]

theorem mem_modify {α : Type} {f : α → α} {l : List α} {index : ℕ} {a : α}
    (h : a ∈ l.modify index f) : a ∈ l ∨ ∃ b ∈ l, l[index]? = some b ∧ a = f b := by
  obtain ⟨k, hk⟩ := List.mem_iff_getElem?.mp h
  rw [List.getElem?_modify] at hk
  obtain ⟨b, hb, rfl⟩ := Option.map_eq_some_iff.mp hk
  have hmem := List.mem_of_getElem? hb
  split_ifs with heq
  · exact .inr ⟨b, hmem, by rw [heq, hb], rfl⟩
  · exact .inl hmem

/-- Finishing a tag, closed only where its marker stands. -/
theorem Right.finishTag (h : Right text last acc) {index offset : ℕ} {closed : Bool}
    (hindex : index < acc.currentFreeTag)
    (hclosed : closed = true → ∀ tag, acc.tags[index]? = some tag →
      tag.tag.length ≤ acc.currentAdjustedLength + offset ∧
      acc.currentAdjustedLength + offset ≤ text.length ∧
      tag.tag <+: text.drop (acc.currentAdjustedLength + offset - tag.tag.length)) :
    Right text last (acc.finishTag index offset closed) := by
  have hcurrent := h.current
  have hopened : (acc.finishTag index offset closed).opened = acc.opened.modify index fun tag =>
      if tag.internalLength < 0 then
        { tag with
          internalLength := acc.currentInternalLength + offset - tag.internalStart
          adjustedLength := acc.currentAdjustedLength + offset - tag.adjustedStart
          closed := closed }
      else tag := List.take_modify _ _ _ _
  have hstarts : (acc.finishTag index offset closed).opened.map MarkdownTag.adjustedStart =
      acc.opened.map MarkdownTag.adjustedStart := by
    rw [hopened]
    refine modify_map_eq (fun tag => ?_) _ _
    split_ifs <;> rfl
  refine ⟨?_, ?_, ?_, ?_, ?_⟩
  · rw [MarkdownTagAccumulator.finishTag]
    simp only
    split_ifs <;> omega
  · rw [MarkdownTagAccumulator.finishTag]
    simp only [List.length_modify]
    exact h.free
  · rw [hopened]
    intro tag htag
    obtain htag | ⟨before, hbefore, hget, rfl⟩ := mem_modify htag
    · exact h.placed tag htag
    · have hplaced := h.placed before hbefore
      split_ifs
      · refine ⟨hplaced.inside, hplaced.opening, fun hclosed' => ?_⟩
        rw [opened, List.getElem?_take_of_lt hindex] at hget
        obtain ⟨hlength, hle, hmarker⟩ := hclosed hclosed' before hget
        exact ⟨acc.currentAdjustedLength + offset, by simp only; omega, hlength, hle, hmarker⟩
      · exact hplaced
  · have hsorted := h.sorted
    rw [← List.pairwise_map (f := MarkdownTag.adjustedStart) (R := fun a b => a ≤ b)] at hsorted ⊢
    rwa [hstarts]
  · intro tag htag
    have hmem := List.mem_map_of_mem (f := MarkdownTag.adjustedStart) htag
    rw [hstarts] at hmem
    obtain ⟨before, hbefore, heq⟩ := List.mem_map.mp hmem
    rw [← heq]
    exact h.starts before hbefore

theorem Right.startTag (h : Right text last acc) {offset : ℕ} {tag : QString}
    (hlast : last ≤ acc.currentAdjustedLength + offset)
    (hinside : acc.currentAdjustedLength + offset + tag.length ≤ text.length)
    (hmarker : tag <+: text.drop (acc.currentAdjustedLength + offset)) :
    Right text (acc.currentAdjustedLength + offset) (acc.startTag offset tag) := by
  have hfree := h.free
  have hcurrent := h.current
  obtain ⟨newTag, hnew⟩ : ∃ newTag : MarkdownTag, newTag =
      ⟨acc.currentInternalLength + offset, -1, acc.currentAdjustedLength + offset, -1, false, tag⟩ :=
    ⟨_, rfl⟩
  have hopened : (acc.startTag offset tag).opened = acc.opened ++ [newTag] := by
    rw [opened, opened, MarkdownTagAccumulator.startTag, ← hnew]
    simp only
    split_ifs with hlt
    · rw [List.take_add_one, List.take_set_of_le le_rfl, List.getElem?_set_self hlt]
      rfl
    · obtain hlength : acc.currentFreeTag = acc.tags.length := by omega
      rw [hlength, List.take_length, List.take_of_length_le (by simp)]
  have hstart : newTag.adjustedStart = acc.currentAdjustedLength + offset := by rw [hnew]
  refine ⟨?_, ?_, ?_, ?_, ?_⟩
  · rw [MarkdownTagAccumulator.startTag]
    simp only
    omega
  · rw [MarkdownTagAccumulator.startTag]
    simp only
    split_ifs
    · rw [List.length_set]
      omega
    · rw [List.length_append, List.length_singleton]
      omega
  · rw [hopened, List.forall_mem_append, List.forall_mem_singleton]
    refine ⟨h.placed, ?_⟩
    rw [hnew]
    exact ⟨hinside, hmarker, fun hno => absurd hno Bool.false_ne_true⟩
  · rw [hopened, List.pairwise_append]
    refine ⟨h.sorted, List.pairwise_singleton _ _, fun a ha b hb => ?_⟩
    rw [List.mem_singleton.mp hb, hstart]
    exact (h.starts a ha).trans hlast
  · rw [hopened, List.forall_mem_append, List.forall_mem_singleton]
    exact ⟨fun a ha => (h.starts a ha).trans hlast, hstart.le⟩

end MarkdownTagAccumulator

end Bettergram.Ui.Widgets
