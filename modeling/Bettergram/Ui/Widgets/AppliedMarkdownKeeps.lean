import Bettergram.Ui.Widgets.AppliedMarkdownLoop
import Bettergram.Ui.Widgets.MarkdownTagFeed
import Mathlib.Algebra.Order.BigOperators.Group.List
import Mathlib.Data.List.Pairwise

/-! # What applied markdown keeps

The text is the original one without the markers that are applied. The original tags
cover what they did, if none stands behind a newline that was removed twice.
-/

namespace Bettergram.Ui.Widgets

open Text (QChar QString charAt EntityInText)

variable {text : QString} {originals : List Tag} {links : List EntityInText}
  {applied : List Applied} {sources : List Source} {tags : List MarkdownTag}

/-! ## The tags that are applied -/

theorem appliedTags_eq (text : QString) (originals : List Tag) (links : List EntityInText)
    (tags : List MarkdownTag) :
    appliedTags text originals links tags = tags.foldl (appliedWith text originals links) [] :=
  rfl

theorem foldl_appliedWith_sublist (text : QString) (originals : List Tag)
    (links : List EntityInText) (tags : List MarkdownTag) (applied : List Applied) :
    ((tags.foldl (appliedWith text originals links) applied).map Applied.tag).Sublist
      (applied.map Applied.tag ++ tags) := by
  induction tags generalizing applied with
  | nil => simp
  | cons tag tags ih =>
    rw [List.foldl_cons]
    refine (ih _).trans ?_
    rw [appliedWith]
    split_ifs
    · rw [List.map_append, List.map_singleton, remaining_tag, List.append_assoc]
      exact List.Sublist.refl _
    · exact (List.sublist_cons_self tag tags).append_left _

theorem mem_foldl_appliedWith {a : Applied}
    (h : a ∈ tags.foldl (appliedWith text originals links) applied) : a ∈ applied ∨
      ∃ before, a = remaining text before a.tag ∧ a.tag.closed = true ∧ 0 < a.tag.entityLength := by
  induction tags generalizing applied with
  | nil => exact .inl h
  | cons tag tags ih =>
    obtain h | h := ih h
    · rw [appliedWith] at h
      split_ifs at h with happlies
      · obtain h | h := List.mem_append.mp h
        · exact .inl h
        · obtain rfl := List.mem_singleton.mp h
          refine .inr ⟨_, by rw [remaining_tag], ?_, ?_⟩
          · rw [remaining_tag]
            exact happlies.closed
          · rw [remaining_tag]
            exact happlies.content
      · exact .inl h
    · exact .inr h

/-- Only markers, and newlines next to those of `pre` blocks, are removed. -/
theorem appliedTags_right (hplaced : ∀ tag ∈ tags, Placed text tag)
    (hordered : Ordered 0 (appliedTags text originals links tags) text.length) :
    AppliedRight text tags (appliedTags text originals links tags) := by
  have hsublist := foldl_appliedWith_sublist text originals links tags []
  rw [List.map_nil, List.nil_append, ← appliedTags_eq] at hsublist
  have hright : ∀ a ∈ appliedTags text originals links tags, RemainingRight text a ∧
      a.tag.tag <+: text.drop a.tagStart ∧
      a.tag.tag <+: text.drop (a.tagStop - a.tag.tag.length) := by
    intro a ha
    obtain hno | ⟨before, hremaining, hclosed, hcontent⟩ := mem_foldl_appliedWith ha
    · exact absurd hno List.not_mem_nil
    · have hplace := hplaced a.tag (hsublist.subset (List.mem_map_of_mem ha))
      obtain ⟨stop, hstop, -, -, hclosing⟩ := hplace.closing hclosed
      obtain ⟨-, htagStart, htagStop⟩ := tagStop_remaining hstop hremaining
      rw [htagStart, htagStop]
      exact ⟨(remaining_spec text before hcontent hstop hremaining).1, hplace.opening, hclosing⟩
  exact ⟨hsublist, hordered.apart, fun a ha =>
      ⟨(hright a ha).1.start, (hright a ha).1.content, (hright a ha).1.stop, (hordered.mem ha).2.2⟩,
    fun a ha => (hright a ha).2, fun a ha => (hright a ha).1.starts,
    fun a ha => (hright a ha).1.stops⟩

/-! ## The result -/

/-- The result comes from the original tags and the tags that are applied, in order. -/
structure ResultRight (text : QString) (originals : List Tag) (applied : List Applied)
    (sources : List Source) (result : TextWithTags) : Prop where
  content : result.text = kept text 0 applied text.length
  tags : result.tags = sources.filterMap (Source.image text applied)
  perm : sources.Perm (originals.map .inl ++ applied.map .inr)
  apart : sources.Pairwise fun a b => a.stop ≤ b.start
  ordered : Ordered 0 applied text.length

/-- A text without tags that are applied. -/
theorem resultRight_nil (text : QString) (horiginals : DisjointTags text originals) :
    ResultRight text originals [] (originals.map .inl) ⟨text, originals⟩ := by
  refine ⟨?_, ?_, ?_, ?_, Nat.zero_le _⟩
  · rw [kept, slice, List.drop_zero, Nat.sub_zero, List.take_length]
  · rw [List.filterMap_map]
    have himage : (Source.image text []) ∘ Sum.inl = some := by
      funext original
      rw [Function.comp_apply, Source.image, sumBefore, List.map_nil, List.sum_nil, sub_zero]
    rw [himage, List.filterMap_some]
  · rw [List.map_nil, List.append_nil]
  · rw [List.pairwise_map]
    exact horiginals.apart

theorem getTextWithAppliedMarkdown_result (parseEntities : QString → List EntityInText)
    (horiginals : DisjointTags text originals)
    (hsorted : tags.Pairwise fun a b => a.adjustedStart ≤ b.adjustedStart)
    (hplaced : ∀ tag ∈ tags, Placed text tag) :
    ∃ sources, ResultRight text originals
      (appliedTags text originals (parseEntities text) tags) sources
      (getTextWithAppliedMarkdown parseEntities true ⟨text, originals⟩ tags) := by
  cases tags with
  | nil => exact ⟨_, resultRight_nil text horiginals⟩
  | cons tag tags =>
  have hstart : LoopRight text originals (parseEntities text) 0 []
      ⟨⟨[], []⟩, 0, originals, 0, parseEntities text⟩ := by
    refine ⟨le_rfl, rfl, Nat.zero_le _, ?_, rfl, fun _ _ => rfl,
      ⟨[], [], ⟨rfl, rfl, List.Perm.refl _, List.Pairwise.nil⟩, fun _ h => absurd h List.not_mem_nil⟩,
      fun original horiginal => (horiginals.inside original horiginal).1⟩
    rw [kept, slice, Nat.sub_self, List.take_zero]
  have hloop := (hstart.foldl horiginals hsorted hplaced (fun _ _ => Int.natCast_nonneg _)
    (Int.natCast_nonneg _))
  rw [← appliedTags_eq] at hloop
  obtain ⟨looped, hlooped⟩ : ∃ looped, looped = ((tag :: tags).foldl (applyTag text)
      ⟨⟨[], []⟩, 0, originals, 0, parseEntities text⟩) := ⟨_, rfl⟩
  have hresult : getTextWithAppliedMarkdown parseEntities true ⟨text, originals⟩ (tag :: tags) =
      ((looped.addOriginalTagsUpTill text.length).addOriginalTextUpTill text text.length).result := by
    rw [hlooped]
    rfl
  rw [← hlooped] at hloop
  have hadded := hloop.addOriginalTagsUpTill horiginals le_rfl
  obtain ⟨done, sources, hcopied, -⟩ := hloop.copied
  have hleft := lt_stop_of_left horiginals hcopied.originals text.length
  obtain ⟨done, sources, hcopied, -⟩ := hadded.copied
  have hall : (looped.addOriginalTagsUpTill text.length).originalTags = [] := by
    refine List.eq_nil_iff_forall_not_mem.mpr fun original horiginal => ?_
    have hinside := (horiginals.inside original (by
      rw [hcopied.originals]
      exact List.mem_append_right _ horiginal)).2.2
    exact absurd (hleft original horiginal) (not_lt.mpr hinside)
  have hdone := hcopied.originals
  rw [hall, List.append_nil] at hdone
  refine ⟨sources, ?_, ?_, ?_, hcopied.apart, hadded.ordered.mono hadded.inside⟩
  · rw [hresult, Applying.addOriginalTextUpTill, hadded.content]
    exact kept_append_slice text hadded.ordered hadded.inside
  · rw [hresult]
    exact hcopied.tags
  · have hperm := hcopied.perm
    rwa [← hdone] at hperm

/-! ## Places of the sources -/

section Places

variable {result : TextWithTags}

/-- A source has no tag that is applied inside it, but itself. -/
theorem ResultRight.clear (h : ResultRight text originals applied sources result) {source : Source}
    (hsource : source ∈ sources) {a : Applied} (ha : a ∈ applied) :
    source = .inr a ∨ source.stop ≤ a.tagStart ∨ a.tagStop ≤ source.start := by
  have hmem : (.inr a : Source) ∈ sources :=
    h.perm.mem_iff.mpr (List.mem_append_right _ (List.mem_map_of_mem ha))
  by_cases heq : source = .inr a
  · exact .inl heq
  · have happart : sources.Pairwise fun b c : Source => b.stop ≤ c.start ∨ c.stop ≤ b.start :=
      h.apart.imp fun hbc => .inl hbc
    have hsymm : Std.Symm fun b c : Source => b.stop ≤ c.start ∨ c.stop ≤ b.start :=
      ⟨fun _ _ hbc => hbc.symm⟩
    exact .inr (by exact_mod_cast happart.forall hsource hmem heq)

theorem ResultRight.source_le (h : ResultRight text originals applied sources result)
    (horiginals : DisjointTags text originals) {source : Source} (hsource : source ∈ sources) :
    0 ≤ source.start ∧ source.start < source.stop ∧ source.stop ≤ text.length := by
  obtain hmem | hmem := List.mem_append.mp (h.perm.subset hsource)
  · obtain ⟨original, horiginal, rfl⟩ := List.mem_map.mp hmem
    obtain ⟨hoffset, hlength, hstop⟩ := horiginals.inside original horiginal
    have := tag_stop_eq original
    exact ⟨hoffset, by simp only [Source.start, Source.stop]; omega, hstop⟩
  · obtain ⟨a, ha, rfl⟩ := List.mem_map.mp hmem
    obtain ⟨-, hinside, hstop⟩ := h.ordered.mem ha
    have := hinside.pos
    simp only [Source.start, Source.stop]
    omega

/-- A position of the text after what was removed before it. -/
def newPlace (applied : List Applied) (position : ℤ) : ℤ :=
  position - removedBefore applied position

/-- What is removed before the end of a tag is the tag's own and what is removed before it. -/
theorem removedBefore_tagStop {start stop : ℕ} (h : Ordered start applied stop) {a : Applied}
    (ha : a ∈ applied) :
    removedBefore applied a.tagStop = removedBefore applied a.tagStart + a.removed := by
  induction applied generalizing start with
  | nil => cases ha
  | cons b applied ih =>
    have hpos := h.2.1.pos
    rw [removedBefore, removedBefore, sumBefore_cons, sumBefore_cons, ← removedBefore,
      ← removedBefore]
    obtain rfl | ha := List.mem_cons.mp ha
    · rw [if_pos le_rfl, if_neg (by omega), h.2.2.removedBefore_start le_rfl,
        h.2.2.removedBefore_start (by omega)]
      omega
    · have hle := (h.2.2.mem ha).1
      have := (h.2.2.mem ha).2.1.pos
      rw [if_pos (by omega), if_pos (by omega), ih h.2.2 ha, add_assoc]

/-- Where the tag of a source is, when what is removed is counted right. -/
theorem ResultRight.image_places (h : ResultRight text originals applied sources result)
    (horiginals : DisjointTags text originals) {source : Source} (hsource : source ∈ sources)
    (hcount : ∀ original ∈ originals, sumBefore (counted text) applied original.offset =
      removedBefore applied original.offset) {tag : Tag}
    (htag : Source.image text applied source = some tag) :
    tag.offset = newPlace applied source.start ∧ tag.stop = newPlace applied source.stop ∧
      0 < tag.length := by
  obtain hmem | hmem := List.mem_append.mp (h.perm.subset hsource)
  · obtain ⟨original, horiginal, rfl⟩ := List.mem_map.mp hmem
    rw [Source.image, hcount original horiginal, Option.some_inj] at htag
    have hsame : removedBefore applied original.stop = removedBefore applied original.offset := by
      refine congrArg List.sum (List.map_congr_left fun a ha => ?_)
      have hlength := (horiginals.inside original horiginal).2.1
      have hstop := tag_stop_eq original
      have := (h.ordered.mem ha).2.1.pos
      refine if_congr ?_ rfl rfl
      obtain hno | hclear := h.clear hsource ha
      · cases hno
      · simp only [Source.start, Source.stop] at hclear
        omega
    have hlength := (horiginals.inside original horiginal).2.1
    rw [newPlace, newPlace, Source.start, Source.stop, hsame, ← htag, Tag.stop, Tag.stop]
    exact ⟨rfl, by simp only; omega, hlength⟩
  · obtain ⟨a, ha, rfl⟩ := List.mem_map.mp hmem
    rw [Source.image, entityTag] at htag
    split_ifs at htag with hlt
    rw [Option.some_inj] at htag
    have hstop := removedBefore_tagStop h.ordered ha
    rw [Applied.removed] at hstop
    rw [newPlace, newPlace, Source.start, Source.stop, ← htag, Tag.stop]
    exact ⟨rfl, by simp only; omega, by simp only; omega⟩

/-- Places outside of the tags that are applied keep their order. -/
theorem ResultRight.newPlace_le (h : ResultRight text originals applied sources result)
    {source : Source} (hsource : source ∈ sources) (horiginals : DisjointTags text originals)
    {position : ℤ} (hle : source.stop ≤ position) :
    newPlace applied source.stop ≤ newPlace applied position := by
  refine removedBefore_le h.ordered hle fun a ha => ?_
  have hlt := (h.source_le horiginals hsource).2.1
  obtain rfl | hbefore | hbehind := h.clear hsource ha
  · exact .inr le_rfl
  · exact .inl hbefore
  · exact .inr (hbehind.trans hlt.le)


/-! ## What is kept -/

section Keeps

variable {result : TextWithTags}

/-- Original tags at the places the loop gives them. -/
def movedBy (text : QString) (applied : List Applied) (original : Tag) : Tag :=
  { original with offset :=
    original.offset - sumBefore (counted text) applied original.offset }

theorem ResultRight.tags_perm (h : ResultRight text originals applied sources result) :
    result.tags.Perm (originals.map (movedBy text applied) ++
      applied.filterMap (entityTag applied)) := by
  have hperm := h.perm.filterMap (Source.image text applied)
  rw [List.filterMap_append, List.filterMap_map, List.filterMap_map] at hperm
  rw [h.tags, ← List.filterMap_eq_map]
  exact hperm

/-- When each original tag is counted right, everything is kept. -/
theorem ResultRight.keeps (h : ResultRight text originals applied sources result)
    (horiginals : DisjointTags text originals)
    (hcount : ∀ original ∈ originals, sumBefore (counted text) applied original.offset =
      removedBefore applied original.offset) :
    Keeps text originals applied result := by
  have hmoved : ∀ original ∈ originals, movedBy text applied original = moved applied original :=
    fun original horiginal => by rw [movedBy, moved, hcount original horiginal]
  have hlength := kept_length h.ordered le_rfl
  have hsource : ∀ tag ∈ result.tags, ∃ source ∈ sources,
      tag.offset = newPlace applied source.start ∧ tag.stop = newPlace applied source.stop ∧
        0 < tag.length := fun tag htag => by
    rw [h.tags] at htag
    obtain ⟨source, hsource, himage⟩ := List.mem_filterMap.mp htag
    exact ⟨source, hsource, h.image_places horiginals hsource hcount himage⟩
  have hend : newPlace applied text.length = result.text.length := by
    rw [h.content, hlength, newPlace, removedBefore, sumBefore_eq_sum, totalRemoved,
      Nat.cast_zero, sub_zero]
    exact fun a ha => by exact_mod_cast (h.ordered.mem ha).2.2
  have hstart : newPlace applied 0 = 0 := by
    rw [newPlace, h.ordered.removedBefore_start (Int.natCast_nonneg 0), sub_zero]
  refine ⟨h.content, ?_, ⟨?_, ?_⟩, ?_⟩
  · have hperm := h.tags_perm
    rwa [List.map_congr_left hmoved] at hperm
  · rw [h.tags, List.pairwise_filterMap]
    refine List.Pairwise.imp_of_mem (fun {a b} ha hb hab tag htag next hnext => ?_) h.apart
    obtain ⟨-, hstop, -⟩ := h.image_places horiginals ha hcount htag
    obtain ⟨hoffset, -, -⟩ := h.image_places horiginals hb hcount hnext
    rw [hstop, hoffset]
    exact h.newPlace_le ha horiginals hab
  · intro tag htag
    obtain ⟨source, hmem, hoffset, hstop, hpos⟩ := hsource tag htag
    obtain ⟨hzero, -, hle⟩ := h.source_le horiginals hmem
    refine ⟨?_, hpos, ?_⟩
    · rw [hoffset, ← hstart]
      exact removedBefore_le h.ordered hzero fun a _ => .inl (Int.natCast_nonneg _)
    · rw [hstop, ← hend]
      exact h.newPlace_le hmem horiginals hle
  · intro original horiginal
    have hmem : (.inl original : Source) ∈ sources :=
      h.perm.mem_iff.mpr (List.mem_append_left _ (List.mem_map_of_mem horiginal))
    obtain ⟨hzero, hpos, hle⟩ := horiginals.inside original horiginal
    have hstopEq := tag_stop_eq original
    obtain ⟨a, ha⟩ := Int.eq_ofNat_of_zero_le hzero
    obtain ⟨b, hb⟩ := Int.eq_ofNat_of_zero_le (show 0 ≤ original.stop by omega)
    have hplace : 0 ≤ newPlace applied original.offset := by
      rw [← hstart]
      exact removedBefore_le h.ordered hzero fun c _ => .inl (Int.natCast_nonneg _)
    obtain ⟨i, hi⟩ := Int.eq_ofNat_of_zero_le hplace
    have hoffset : (moved applied original).offset = i := hi
    have hmovedStop : (moved applied original).stop = ((i + (b - a) : ℕ) : ℤ) := by
      rw [tag_stop_eq, hoffset]
      have : (moved applied original).length = original.length := rfl
      omega
    rw [hoffset, hmovedStop, ha, hb, Int.toNat_natCast, Int.toNat_natCast, Int.toNat_natCast,
      Int.toNat_natCast, h.content]
    refine slice_kept h.ordered le_rfl (Nat.zero_le _) (by omega) (by omega) (fun c hc => ?_) ?_
    · obtain hno | hclear := h.clear hmem hc
      · cases hno
      · simp only [Source.start, Source.stop] at hclear
        omega
    · rw [← hi, newPlace, ha, Nat.cast_zero, sub_zero]

/-- A tag counts for too much when its newline is removed twice. -/
theorem sumBefore_counted (text : QString) (applied : List Applied) (position : ℤ) :
    sumBefore (counted text) applied position =
      removedBefore applied position + sumBefore (overcount text) applied position := by
  rw [removedBefore, sumBefore, sumBefore, sumBefore, ← List.sum_map_add]
  refine congrArg List.sum (List.map_congr_left fun a _ => ?_)
  split_ifs
  · rfl
  · rfl

theorem sumBefore_overcount_nonneg (text : QString) (applied : List Applied) (position : ℤ) :
    0 ≤ sumBefore (overcount text) applied position := by
  refine List.sum_nonneg fun x hx => ?_
  obtain ⟨a, -, rfl⟩ := List.mem_map.mp hx
  split_ifs
  · exact overcount_nonneg text a
  · exact le_rfl

/-- Everything is kept if and only if each original tag is counted right. -/
theorem ResultRight.keeps_iff (h : ResultRight text originals applied sources result)
    (horiginals : DisjointTags text originals) :
    Keeps text originals applied result ↔ ∀ original ∈ originals,
      sumBefore (counted text) applied original.offset =
        removedBefore applied original.offset := by
  refine ⟨fun hkeeps => ?_, h.keeps horiginals⟩
  by_contra hno
  push Not at hno
  obtain ⟨original, horiginal, hne⟩ := hno
  have hperm := h.tags_perm.symm.trans hkeeps.tags
  rw [List.perm_append_right_iff] at hperm
  have hsum := (hperm.map Tag.offset).sum_eq
  rw [List.map_map, List.map_map] at hsum
  refine absurd hsum (ne_of_lt ?_)
  have hle : ∀ tag : Tag, (movedBy text applied tag).offset ≤ (moved applied tag).offset := by
    intro tag
    have := sumBefore_overcount_nonneg text applied tag.offset
    have := sumBefore_counted text applied tag.offset
    simp only [movedBy, moved]
    omega
  refine List.sum_lt_sum _ _ (fun tag _ => hle tag) ⟨original, horiginal, ?_⟩
  refine lt_of_le_of_ne (hle original) fun heq => hne ?_
  simp only [Function.comp_apply, movedBy, moved] at heq
  omega

/-- An original tag is counted right when no newline before it is removed twice. -/
theorem ResultRight.count_iff (h : ResultRight text originals applied sources result)
    (horiginals : DisjointTags text originals) {original : Tag} (horiginal : original ∈ originals) :
    sumBefore (counted text) applied original.offset = removedBefore applied original.offset ↔
      ∀ a ∈ applied, TrimmedTwice text a → original.stop ≤ a.tagStart := by
  have hmem : (.inl original : Source) ∈ sources :=
    h.perm.mem_iff.mpr (List.mem_append_left _ (List.mem_map_of_mem horiginal))
  have hlength := (horiginals.inside original horiginal).2.1
  have hstop := tag_stop_eq original
  rw [sumBefore_counted, add_eq_left]
  constructor
  · intro hzero a ha htwice
    obtain hno | hclear := h.clear hmem ha
    · cases hno
    simp only [Source.start, Source.stop] at hclear
    refine hclear.resolve_right fun hle => ?_
    have hpos : (1 : ℤ) ≤ sumBefore (overcount text) applied original.offset := by
      refine le_trans (le_of_eq ?_) (List.single_le_sum (fun x hx => ?_) _
        (List.mem_map_of_mem ha))
      · rw [if_pos hle, overcount, if_pos htwice]
      · obtain ⟨b, -, rfl⟩ := List.mem_map.mp hx
        split_ifs
        · exact overcount_nonneg text b
        · exact le_rfl
    omega
  · intro hall
    refine List.sum_eq_zero fun x hx => ?_
    obtain ⟨a, ha, rfl⟩ := List.mem_map.mp hx
    split_ifs with hle
    · refine if_neg fun htwice => ?_
      have := hall a ha htwice
      have := (h.ordered.mem ha).2.1.pos
      omega
    · rfl

end Keeps

/-- The tags that are applied, if markdown is. -/
def appliedIf (markdownEnabled : Bool) (text : QString) (originals : List Tag)
    (links : List EntityInText) (tags : List MarkdownTag) : List Applied :=
  if markdownEnabled then appliedTags text originals links tags else []

/-- Only markers and newlines next to them are removed. All else is kept if and only if no
original tag stands behind a `pre` block with a newline that is removed twice. -/
theorem getTextWithAppliedMarkdown_keeps_iff (parseEntities : QString → List EntityInText)
    (markdownEnabled : Bool) (rounds : ℕ) (before tags : List MarkdownTag)
    (fragments : List Fragment) (hvalid : ∀ fragment ∈ fragments, fragment.Valid)
    (htags : markdownTags rounds before fragments = some tags) (text : QString)
    (htext : text = fragments.flatMap Fragment.adjusted) (originals : List Tag)
    (horiginals : DisjointTags text originals) (applied : List Applied)
    (happlied : applied = appliedIf markdownEnabled text originals (parseEntities text) tags) :
    AppliedRight text tags applied ∧
      (Keeps text originals applied
          (getTextWithAppliedMarkdown parseEntities markdownEnabled ⟨text, originals⟩ tags) ↔
        ∀ a ∈ applied, TrimmedTwice text a →
          ∀ original ∈ originals, original.stop ≤ a.tagStart) := by
  obtain ⟨hsorted, hplaced⟩ := markdownTags_spec hvalid htags
  rw [← htext] at hplaced
  obtain ⟨sources, hresult⟩ : ∃ sources, ResultRight text originals applied sources
      (getTextWithAppliedMarkdown parseEntities markdownEnabled ⟨text, originals⟩ tags) := by
    rw [happlied]
    cases markdownEnabled with
    | false => exact ⟨_, resultRight_nil text horiginals⟩
    | true => exact getTextWithAppliedMarkdown_result parseEntities horiginals hsorted hplaced
  refine ⟨?_, ?_⟩
  · have hordered := hresult.ordered
    rw [happlied] at hordered ⊢
    cases markdownEnabled with
    | false =>
      exact ⟨List.nil_sublist _, List.Pairwise.nil, fun _ h => absurd h List.not_mem_nil,
        fun _ h => absurd h List.not_mem_nil, fun _ h => absurd h List.not_mem_nil,
        fun _ h => absurd h List.not_mem_nil⟩
    | true => exact appliedTags_right hplaced hordered
  · rw [hresult.keeps_iff horiginals]
    constructor
    · exact fun hcount a ha htwice original horiginal =>
        (hresult.count_iff horiginals horiginal).mp (hcount original horiginal) a ha htwice
    · exact fun hall original horiginal => (hresult.count_iff horiginals horiginal).mpr
        fun a ha htwice => hall a ha htwice original horiginal


/-- `**a**` is typed. -/
theorem getTextWithAppliedMarkdown_keeps_iff_bold :
    AppliedRight [42, 42, 97, 42, 42] [⟨0, 5, 0, 5, true, kTagBold⟩]
        (appliedIf true [42, 42, 97, 42, 42] [] [] [⟨0, 5, 0, 5, true, kTagBold⟩]) ∧
      (Keeps [42, 42, 97, 42, 42] []
          (appliedIf true [42, 42, 97, 42, 42] [] [] [⟨0, 5, 0, 5, true, kTagBold⟩])
          (getTextWithAppliedMarkdown (fun _ => []) true ⟨[42, 42, 97, 42, 42], []⟩
            [⟨0, 5, 0, 5, true, kTagBold⟩]) ↔
        ∀ a ∈ appliedIf true [42, 42, 97, 42, 42] [] [] [⟨0, 5, 0, 5, true, kTagBold⟩],
          TrimmedTwice [42, 42, 97, 42, 42] a →
            ∀ original ∈ ([] : List Tag), original.stop ≤ a.tagStart) :=
  getTextWithAppliedMarkdown_keeps_iff (fun _ => []) true 10 [] [⟨0, 5, 0, 5, true, kTagBold⟩]
    [⟨[42, 42, 97, 42, 42], [42, 42, 97, 42, 42], []⟩]
    (fun fragment hfragment => by
      rw [List.mem_singleton.mp hfragment]
      exact ⟨.inl rfl⟩)
    (by decide) [42, 42, 97, 42, 42] rfl [] ⟨List.Pairwise.nil, fun _ h => absurd h List.not_mem_nil⟩
    _ rfl

/-- A `pre` block with a newline, a newline, and a letter with a tag. -/
def newlineBlock : QString := [96, 96, 96, 10, 96, 96, 96, 10, 97]

/-- The lines of the block, and the letter. -/
def newlineBlockFragments : List Fragment :=
  [⟨kTagPre, kTagPre, []⟩, ⟨[10], [10], []⟩, ⟨kTagPre, kTagPre, []⟩, ⟨[10], [10], []⟩,
    ⟨[97], [97], [1]⟩]

theorem newlineBlock_disjoint : DisjointTags newlineBlock [⟨8, 1, [1]⟩] where
  apart := List.pairwise_singleton _ _
  inside tag htag := by
    rw [List.mem_singleton.mp htag]
    decide

/-- The tag of the letter is put on the newline before it. -/
theorem getTextWithAppliedMarkdown_loses_tag :
    ¬ ∀ (parseEntities : QString → List EntityInText) (markdownEnabled : Bool) (rounds : ℕ)
      (before tags : List MarkdownTag) (fragments : List Fragment),
      (∀ fragment ∈ fragments, fragment.Valid) → markdownTags rounds before fragments = some tags →
      ∀ text : QString, text = fragments.flatMap Fragment.adjusted →
      ∀ originals : List Tag, DisjointTags text originals → ∃ applied : List Applied,
        AppliedRight text tags applied ∧ Keeps text originals applied
          (getTextWithAppliedMarkdown parseEntities markdownEnabled ⟨text, originals⟩ tags) := by
  intro h
  obtain ⟨applied, hright, hkeeps⟩ := h (fun _ => []) true 10 [] [⟨0, 7, 0, 7, true, kTagPre⟩]
    newlineBlockFragments (fun fragment hfragment => by
      have : ∀ fragment ∈ newlineBlockFragments, fragment.adjusted = fragment.text := by decide
      exact ⟨.inl (this fragment hfragment)⟩)
    (by decide) newlineBlock rfl [⟨8, 1, [1]⟩] newlineBlock_disjoint
  obtain ⟨result, hresult⟩ : ∃ result, result = getTextWithAppliedMarkdown (fun _ => []) true
      ⟨newlineBlock, [⟨8, 1, [1]⟩]⟩ [⟨0, 7, 0, 7, true, kTagPre⟩] := ⟨_, rfl⟩
  have hvalue : result = ⟨[10, 97], [⟨0, 1, [1]⟩]⟩ := by
    rw [hresult]
    decide
  rw [← hresult, hvalue] at hkeeps
  cases applied with
  | nil => exact absurd hkeeps.content (by decide)
  | cons a rest =>
    have hmem : moved (a :: rest) ⟨8, 1, [1]⟩ ∈ ([⟨0, 1, [1]⟩] : List Tag) :=
      hkeeps.tags.mem_iff.mpr (List.mem_append_left _ List.mem_cons_self)
    have hoffset : (8 : ℤ) - removedBefore (a :: rest) 8 = 0 :=
      congrArg Tag.offset (List.mem_singleton.mp hmem)
    have hlength := hright.sublist.length_le
    obtain rfl : rest = [] := by
      rw [List.length_map, List.length_cons, List.length_singleton] at hlength
      exact List.eq_nil_of_length_eq_zero (by omega)
    have htag : a.tag = ⟨0, 7, 0, 7, true, kTagPre⟩ :=
      List.mem_singleton.mp (hright.sublist.subset List.mem_cons_self)
    have hstart : a.tagStart = 0 := by rw [Applied.tagStart, htag]
    have hstop : a.tagStop = 7 := by
      rw [Applied.tagStop, htag]
      decide
    have hcontent := (hright.inside a List.mem_cons_self).2.1
    rw [removedBefore, sumBefore_cons, hstop, if_pos (by decide), sumBefore, List.map_nil,
      List.sum_nil, Applied.removed, hstart, hstop] at hoffset
    omega

end Places

end Bettergram.Ui.Widgets
