import Bettergram.Ui.Widgets.MarkdownTagItems

/-! # What is known of a markdown tag

A tag has places in what is fed, and in the text that the fragments add. In both it is
open behind its marker, or finished inside of the text; a tag that is closed stands
between its own markers.
-/

namespace Bettergram.Ui.Widgets

open Text (QChar QString charAt)

/-- Places in what is fed, or in the text that it adds. -/
inductive View
  | internal | adjusted

namespace View

def part : View → Fragment → QString
  | .internal, fragment => fragment.text
  | .adjusted, fragment => fragment.adjusted

def start : View → MarkdownTag → ℕ
  | .internal, tag => tag.internalStart
  | .adjusted, tag => tag.adjustedStart

def length : View → MarkdownTag → ℤ
  | .internal, tag => tag.internalLength
  | .adjusted, tag => tag.adjustedLength

def current : View → MarkdownTagAccumulator → ℕ
  | .internal, acc => acc.currentInternalLength
  | .adjusted, acc => acc.currentAdjustedLength

def whole (view : View) (fragments : List Fragment) : QString := fragments.flatMap view.part

/-- A fragment has no emoji, or only emoji that are shown. -/
def Fits (view : View) (fragment : Fragment) : Prop :=
  view.part fragment = fragment.text ∨
    ((∀ ch ∈ fragment.text, ch = ObjectReplacementCharacter) ∧
      (fragment.text ≠ [] → view.part fragment ≠ []))

variable {view : View} {fragment : Fragment}

theorem fits_internal (fragment : Fragment) : View.internal.Fits fragment := .inl rfl

@[simp] theorem whole_nil (view : View) : view.whole [] = [] := rfl

@[simp] theorem whole_append (view : View) (a b : List Fragment) :
    view.whole (a ++ b) = view.whole a ++ view.whole b := List.flatMap_append

@[simp] theorem whole_singleton (view : View) (fragment : Fragment) :
    view.whole [fragment] = view.part fragment := List.flatMap_singleton _ _

theorem Fits.plain (h : view.Fits fragment) {ch : QChar} (hmem : ch ∈ fragment.text)
    (hne : ch ≠ ObjectReplacementCharacter) : view.part fragment = fragment.text :=
  h.resolve_right fun hemoji => hne (hemoji.1 ch hmem)

/-- A fragment where a marker stands has no emoji. -/
theorem Fits.plain_of_marker (h : view.Fits fragment) {index : Fin 4} {position : ℕ}
    (hmarker : (TagStartExpressions index).tag <+: fragment.text.drop position) :
    view.part fragment = fragment.text := by
  obtain ⟨hne, hnotMem⟩ := marker_spec index
  obtain ⟨ch, hch⟩ := List.exists_mem_of_ne_nil _ hne
  refine h.plain (List.mem_of_mem_drop (hmarker.subset hch)) fun heq => ?_
  rw [heq] at hch
  exact hnotMem hch

theorem Fits.ne_nil (h : view.Fits fragment) (hne : fragment.text ≠ []) :
    view.part fragment ≠ [] := by
  rcases h with hplain | ⟨-, hshown⟩
  · rwa [hplain]
  · exact hshown hne

end View

/-! ## What is known of a tag -/

/-- A tag stands between its markers, in fragments one after the other without a tag. -/
def Enclosed (view : View) (fragments : List Fragment) (tag : MarkdownTag) : Prop :=
  ∃ a b c front between back, fragments = a ++ b ++ c ∧ (∀ fragment ∈ b, fragment.textTag = []) ∧
    between ≠ [] ∧ view.whole b = front ++ tag.tag ++ between ++ tag.tag ++ back ∧
    view.start tag = (view.whole a ++ front).length ∧
    view.length tag = (tag.tag ++ between ++ tag.tag).length

/-- A tag that is finished. -/
structure Done (view : View) (fed : List Fragment) (tag : MarkdownTag) : Prop where
  finished : 0 ≤ tag.internalLength
  start : view.start tag < (view.whole fed).length
  stop : ∃ count : ℕ, view.length tag = count ∧ view.start tag + count ≤ (view.whole fed).length
  real : tag.closed = true → Enclosed view fed tag

/-- A tag of the fragments before that is still open. -/
structure Opening (view : View) (fed : List Fragment) (tag : MarkdownTag) : Prop where
  unfinished : tag.internalLength < 0
  kind : ∃ index, TagIndices tag.tag = some index
  inside : tag.internalStart + tag.tag.length ≤ (View.internal.whole fed).length
  place : ∃ a b front back, fed = a ++ b ∧ (∀ fragment ∈ b, fragment.textTag = []) ∧
    view.whole b = front ++ tag.tag ++ back ∧ view.start tag = (view.whole a ++ front).length ∧
    (tag.internalStart + tag.tag.length < (View.internal.whole fed).length → back ≠ [])

/-- A tag that was opened in the fragment that is fed. -/
structure Started (view : View) (fed : List Fragment) (fragment : Fragment) (tag : MarkdownTag) :
    Prop where
  unfinished : tag.internalLength < 0
  kind : ∃ index, TagIndices tag.tag = some index
  place : ∃ offset, tag.internalStart = (View.internal.whole fed).length + offset ∧
    view.start tag = (view.whole fed).length + offset ∧ offset < kInvalidPosition ∧
    tag.tag <+: fragment.text.drop offset

/-- A tag while a fragment is fed. -/
def Held (view : View) (fed : List Fragment) (fragment : Fragment) (tag : MarkdownTag) : Prop :=
  Done view (fed ++ [fragment]) tag ∨ Opening view fed tag ∨ Started view fed fragment tag

section

variable {view : View} {fed : List Fragment} {fragment : Fragment} {tag : MarkdownTag}

theorem tag_length_pos {index : Fin 4} (h : TagIndices tag.tag = some index) :
    0 < tag.tag.length := by
  rw [← tag_of_tagIndices h]
  exact List.length_pos_iff.mpr (marker_spec index).1

theorem Enclosed.append (h : Enclosed view fed tag) (more : List Fragment) :
    Enclosed view (fed ++ more) tag := by
  obtain ⟨a, b, c, front, between, back, rfl, hrest⟩ := h
  exact ⟨a, b, c ++ more, front, between, back, by rw [List.append_assoc], hrest⟩

theorem Done.append (h : Done view fed tag) (more : List Fragment) :
    Done view (fed ++ more) tag := by
  have hlength : (view.whole fed).length ≤ (view.whole (fed ++ more)).length := by simp
  obtain ⟨count, hcount, hle⟩ := h.stop
  exact ⟨h.finished, h.start.trans_le hlength, ⟨count, hcount, hle.trans hlength⟩,
    fun hclosed => (h.real hclosed).append more⟩

theorem Opening.start_add (h : Opening view fed tag) :
    view.start tag + tag.tag.length ≤ (view.whole fed).length := by
  obtain ⟨a, b, front, back, rfl, -, hwhole, hstart, -⟩ := h.place
  rw [View.whole_append, hwhole, hstart]
  simp only [List.length_append]
  omega

/-- What stands behind an open marker, up to a place in the fragment. -/
theorem cut_of_open (h : Opening view fed tag ∨ Started view fed fragment tag) {position : ℕ}
    (hle : position ≤ fragment.text.length)
    (hgap : tag.internalStart + tag.tag.length + 1 ≤
      (View.internal.whole fed).length + position) :
    ∃ a b front between, fed = a ++ b ∧ (∀ fragment ∈ b, fragment.textTag = []) ∧ between ≠ [] ∧
      view.whole b ++ fragment.text.take position = front ++ tag.tag ++ between ∧
      view.start tag = (view.whole a ++ front).length := by
  rcases h with hopening | hstarted
  · obtain ⟨a, b, front, back, heq, hblocks, hwhole, hstart, hback⟩ := hopening.place
    refine ⟨a, b, front, back ++ fragment.text.take position, heq, hblocks, ?_, ?_, hstart⟩
    · intro hnil
      obtain ⟨hbackNil, htake⟩ := List.append_eq_nil_iff.mp hnil
      have hlength := congrArg List.length htake
      rw [List.length_take, min_eq_left hle, List.length_nil] at hlength
      exact hback (by omega) hbackNil
    · rw [hwhole]
      simp only [List.append_assoc]
  · obtain ⟨offset, hinternal, hstart, -, rest, hrest⟩ := hstarted.place
    have hlength := congrArg List.length hrest
    rw [List.length_append, List.length_drop] at hlength
    refine ⟨fed, [], fragment.text.take offset,
      rest.take (position - offset - tag.tag.length), by rw [List.append_nil],
      fun other hother => absurd hother List.not_mem_nil, ?_, ?_, ?_⟩
    · refine List.ne_nil_of_length_pos ?_
      rw [List.length_take]
      omega
    · rw [View.whole_nil, List.nil_append, List.append_assoc]
      calc fragment.text.take position
          = fragment.text.take (offset + (position - offset)) := by
            rw [Nat.add_sub_of_le (by omega)]
        _ = fragment.text.take offset ++ (fragment.text.drop offset).take (position - offset) :=
            List.take_add
        _ = _ := by
            rw [← hrest, List.take_append,
              List.take_of_length_le (show tag.tag.length ≤ position - offset by omega)]
    · rw [hstart, List.length_append, List.length_take, min_eq_left (by omega)]

/-- An open tag starts inside of the text with the fragment. -/
theorem start_lt_of_held (hfits : view.Fits fragment) (h : Held view fed fragment tag) :
    view.start tag < (view.whole (fed ++ [fragment])).length := by
  rcases h with hdone | hopening | hstarted
  · exact hdone.start
  · obtain ⟨index, hindex⟩ := hopening.kind
    have := hopening.start_add
    have := tag_length_pos hindex
    simp only [View.whole_append, List.length_append]
    omega
  · obtain ⟨index, hindex⟩ := hstarted.kind
    obtain ⟨offset, -, hstart, -, hmarker⟩ := hstarted.place
    have hpos := tag_length_pos hindex
    have hlength := hmarker.length_le
    rw [List.length_drop] at hlength
    rw [← tag_of_tagIndices hindex] at hmarker
    rw [View.whole_append, View.whole_singleton, hfits.plain_of_marker hmarker, hstart]
    simp only [List.length_append]
    omega

theorem Opening.append (hfits : view.Fits fragment) (hblock : fragment.textTag = [])
    (h : Opening view fed tag) : Opening view (fed ++ [fragment]) tag := by
  obtain ⟨a, b, front, back, rfl, hblocks, hwhole, hstart, hback⟩ := h.place
  refine ⟨h.unfinished, h.kind, ?_, a, b ++ [fragment], front, back ++ view.part fragment,
    by rw [List.append_assoc], ?_, ?_, hstart, fun hlt hnil => ?_⟩
  · have := h.inside
    simp only [View.whole_append, List.length_append] at this ⊢
    omega
  · rw [List.forall_mem_append, List.forall_mem_singleton]
    exact ⟨hblocks, hblock⟩
  · rw [View.whole_append, View.whole_singleton, hwhole]
    simp only [List.append_assoc]
  · obtain ⟨hbackNil, hpart⟩ := List.append_eq_nil_iff.mp hnil
    have htext : fragment.text = [] := by
      by_contra hne
      exact hfits.ne_nil hne hpart
    refine hback ?_ hbackNil
    rw [View.whole_append, View.whole_singleton] at hlt
    rwa [show View.internal.part fragment = [] from htext, List.append_nil] at hlt

theorem Started.opening (hfits : view.Fits fragment) (hblock : fragment.textTag = [])
    (h : Started view fed fragment tag) : Opening view (fed ++ [fragment]) tag := by
  obtain ⟨index, hindex⟩ := h.kind
  obtain ⟨offset, hinternal, hstart, -, rest, hrest⟩ := h.place
  have hplain : view.part fragment = fragment.text := by
    have hmarker : (TagStartExpressions index).tag <+: fragment.text.drop offset := by
      rw [tag_of_tagIndices hindex]
      exact ⟨rest, hrest⟩
    exact hfits.plain_of_marker hmarker
  have hlength := congrArg List.length hrest
  have hpos := tag_length_pos hindex
  rw [List.length_append, List.length_drop] at hlength
  have hpart : View.internal.part fragment = fragment.text := rfl
  refine ⟨h.unfinished, h.kind, ?_, fed, [fragment], fragment.text.take offset, rest, rfl,
    List.forall_mem_singleton.mpr hblock, ?_, ?_, fun hlt hnil => ?_⟩
  · simp only [View.whole_append, View.whole_singleton, hpart, List.length_append]
    omega
  · rw [View.whole_singleton, hplain, List.append_assoc, hrest, List.take_append_drop]
  · rw [hstart, List.length_append, List.length_take, min_eq_left (by omega)]
  · simp only [View.whole_append, View.whole_singleton, hpart, List.length_append] at hlt
    rw [hnil, List.length_nil] at hlength
    omega

end

end Bettergram.Ui.Widgets
