import Bettergram.Ui.Widgets.AppliedMarkdownTags
import Mathlib.Data.List.TakeWhile

/-! # The loop over the tags

Before each tag the text is copied up to the end of the last tag that was applied, and
the original tags in front of it are copied too. A place counts for what was removed
before it.
-/

namespace Bettergram.Ui.Widgets

open Text (QChar QString charAt EntityInText)

variable {text : QString} {originals : List Tag} {links : List EntityInText} {last : ℤ}
  {applied : List Applied} {s : Applying}

/-- What the loop counts as removed with a tag. -/
def counted (text : QString) (a : Applied) : ℤ := a.removed + overcount text a

/-! ## What is copied -/

/-- A tag of the result comes from an original tag or from one that is applied. -/
abbrev Source := Tag ⊕ Applied

def Source.start : Source → ℤ
  | .inl original => original.offset
  | .inr a => a.tagStart

def Source.stop : Source → ℤ
  | .inl original => original.stop
  | .inr a => a.tagStop

/-- Where the loop puts it. -/
def Source.image (text : QString) (applied : List Applied) : Source → Option Tag
  | .inl original =>
    some { original with offset :=
      original.offset - sumBefore (counted text) applied original.offset }
  | .inr a => entityTag applied a

/-- The original tags that are done, and the tags that are applied, have been copied in
order. -/
structure Copied (text : QString) (originals : List Tag) (applied : List Applied) (s : Applying)
    (done : List Tag) (sources : List Source) : Prop where
  originals : originals = done ++ s.originalTags
  tags : s.result.tags = sources.filterMap (Source.image text applied)
  perm : sources.Perm (done.map .inl ++ applied.map .inr)
  apart : sources.Pairwise fun a b => a.stop ≤ b.start

/-- The state of the loop behind the tags up to `last`. -/
structure LoopRight (text : QString) (originals : List Tag) (links : List EntityInText) (last : ℤ)
    (applied : List Applied) (s : Applying) : Prop where
  ordered : Ordered 0 applied s.textFrom
  textFrom : s.textFrom = endOf applied
  inside : s.textFrom ≤ text.length
  content : s.result.text = kept text 0 applied s.textFrom
  removed : s.removed = (applied.map (counted text)).sum
  links : ∀ offset, last ≤ offset → (s.links.dropWhile fun link => link.stop ≤ offset) =
    links.dropWhile fun link => link.stop ≤ offset
  copied : ∃ done sources, Copied text originals applied s done sources ∧
    ∀ original ∈ done, original.stop ≤ last
  behind : ∀ original ∈ s.originalTags, s.textFrom ≤ original.offset

theorem LoopRight.mono (h : LoopRight text originals links last applied s) (later : ℤ)
    (hle : last ≤ later) : LoopRight text originals links later applied s := by
  obtain ⟨done, sources, hcopied, hdone⟩ := h.copied
  exact ⟨h.ordered, h.textFrom, h.inside, h.content, h.removed,
    fun offset hoffset => h.links offset (hle.trans hoffset),
    ⟨done, sources, hcopied, fun original horiginal => (hdone original horiginal).trans hle⟩,
    h.behind⟩

/-- The tags that are applied end where the text is copied to. -/
theorem LoopRight.tagStop_le (h : LoopRight text originals links last applied s) {a : Applied}
    (ha : a ∈ applied) : a.tagStop ≤ s.textFrom :=
  (h.ordered.mem ha).2.2

/-! ## Original tags -/

theorem tag_stop_eq (tag : Tag) : tag.stop = tag.offset + tag.length := rfl

/-- The original tags up to a place are copied. -/
theorem LoopRight.addOriginalTagsUpTill (h : LoopRight text originals links last applied s)
    (horiginals : DisjointTags text originals) {offset : ℤ} (hle : last ≤ offset) :
    LoopRight text originals links offset applied (s.addOriginalTagsUpTill offset) := by
  obtain ⟨done, sources, hcopied, hdone⟩ := h.copied
  obtain ⟨new, hnew⟩ : ∃ new, new = s.originalTags.takeWhile fun tag => tag.stop ≤ offset :=
    ⟨_, rfl⟩
  obtain ⟨rest, hrest⟩ : ∃ rest, rest = s.originalTags.dropWhile fun tag => tag.stop ≤ offset :=
    ⟨_, rfl⟩
  have hsplit : s.originalTags = new ++ rest := by
    rw [hnew, hrest, List.takeWhile_append_dropWhile]
  have hnewStop : ∀ original ∈ new, original.stop ≤ offset := fun original horiginal => by
    rw [hnew] at horiginal
    simpa using List.mem_takeWhile_imp horiginal
  have hnewBehind : ∀ original ∈ new, (s.textFrom : ℤ) ≤ original.offset :=
    fun original horiginal => h.behind original (by simp [hsplit, horiginal])
  have happart := horiginals.apart
  rw [hcopied.originals, hsplit, ← List.append_assoc, List.pairwise_append,
    List.pairwise_append] at happart
  obtain ⟨⟨-, hnewApart, hcross⟩, -, -⟩ := happart
  have htags : (s.addOriginalTagsUpTill offset).result.tags =
      (sources ++ new.map Sum.inl).filterMap (Source.image text applied) := by
    rw [Applying.addOriginalTagsUpTill, ← hnew, List.filterMap_append, ← hcopied.tags,
      List.filterMap_map]
    simp only
    congr 1
    rw [← List.filterMap_eq_map]
    refine List.filterMap_congr fun original horiginal => ?_
    have hsum : sumBefore (counted text) applied original.offset =
        (applied.map (counted text)).sum := sumBefore_eq_sum _ fun a ha => by
      have := h.tagStop_le ha
      have := hnewBehind original horiginal
      omega
    rw [Function.comp_apply, Function.comp_apply, Source.image, hsum, h.removed]
  refine ⟨h.ordered, h.textFrom, h.inside, h.content, h.removed,
    fun later hlater => h.links later (hle.trans hlater),
    ⟨done ++ new, sources ++ new.map Sum.inl, ⟨?_, htags, ?_, ?_⟩, ?_⟩, ?_⟩
  · rw [hcopied.originals, hsplit, List.append_assoc, hrest]
    rfl
  · rw [List.map_append, List.append_assoc]
    refine (hcopied.perm.append_right _).trans ?_
    rw [List.append_assoc]
    exact (List.perm_append_comm).append_left _
  · rw [List.pairwise_append, List.pairwise_map]
    refine ⟨hcopied.apart, hnewApart, fun source hsource target htarget => ?_⟩
    obtain ⟨original, horiginal, rfl⟩ := List.mem_map.mp htarget
    obtain hmem | hmem := List.mem_append.mp (hcopied.perm.subset hsource)
    · obtain ⟨before, hbefore, rfl⟩ := List.mem_map.mp hmem
      exact hcross before hbefore original horiginal
    · obtain ⟨a, ha, rfl⟩ := List.mem_map.mp hmem
      have := h.tagStop_le ha
      have := hnewBehind original horiginal
      simp only [Source.stop, Source.start]
      omega
  · rw [List.forall_mem_append]
    exact ⟨fun original horiginal => (hdone original horiginal).trans hle, hnewStop⟩
  · exact fun original horiginal => h.behind original ((List.dropWhile_sublist _).subset horiginal)

/-- The original tags that are left end behind the place. -/
theorem lt_stop_of_left (horiginals : DisjointTags text originals) {done : List Tag}
    (hall : originals = done ++ s.originalTags) (start : ℤ) :
    ∀ original ∈ (s.addOriginalTagsUpTill start).originalTags, start < original.stop := by
  have hhead := List.head?_dropWhile_not (fun tag : Tag => decide (tag.stop ≤ start)) s.originalTags
  have hrest : (s.addOriginalTagsUpTill start).originalTags =
      s.originalTags.dropWhile fun tag => tag.stop ≤ start := rfl
  have happart := horiginals.apart
  rw [hall, List.pairwise_append] at happart
  have happart := happart.2.1.sublist
    (List.dropWhile_sublist fun tag : Tag => decide (tag.stop ≤ start))
  have hpos : ∀ original ∈ (s.addOriginalTagsUpTill start).originalTags, 0 < original.length :=
    fun original horiginal => (horiginals.inside original (by
      rw [hall, List.mem_append]
      exact .inr ((List.dropWhile_sublist _).subset horiginal))).2.1
  rw [← hrest] at hhead happart
  generalize (s.addOriginalTagsUpTill start).originalTags = rest at *
  cases rest with
  | nil => exact fun original horiginal => absurd horiginal List.not_mem_nil
  | cons next rest =>
    have hnext : start < next.stop := by simpa using hhead
    rw [List.forall_mem_cons]
    refine ⟨hnext, fun original horiginal => ?_⟩
    have := (List.pairwise_cons.mp happart).1 original horiginal
    have := hpos original (List.mem_cons_of_mem _ horiginal)
    have := tag_stop_eq original
    omega

/-- No original tag intersects a tag when the next one that is left does not. -/
theorem LoopRight.clear_iff (h : LoopRight text originals links last applied s)
    (horiginals : DisjointTags text originals) {start : ℤ} (stop : ℤ) (hle : last ≤ start) :
    ((s.addOriginalTagsUpTill start).originalTags.head?.any fun original =>
        original.offset < stop) = false ↔
      ∀ original ∈ originals, original.stop ≤ start ∨ stop ≤ original.offset := by
  obtain ⟨done, sources, hcopied, -⟩ := h.copied
  have hleft := lt_stop_of_left horiginals hcopied.originals start
  obtain ⟨done, sources, hcopied, hdone⟩ := (h.addOriginalTagsUpTill horiginals hle).copied
  have happart := horiginals.apart
  have hall := hcopied.originals
  rw [hall, List.pairwise_append] at happart
  generalize (s.addOriginalTagsUpTill start).originalTags = rest at *
  cases rest with
  | nil =>
    refine iff_of_true rfl fun original horiginal => .inl (hdone original ?_)
    rwa [hall, List.append_nil] at horiginal
  | cons next rest =>
    have hlength := (horiginals.inside next (by simp [hall])).2.1
    have hlater := (List.pairwise_cons.mp happart.2.1).1
    rw [List.head?_cons, Option.any_some, decide_eq_false_iff_not, not_lt]
    constructor
    · intro hstop original horiginal
      rw [hall, List.mem_append, List.mem_cons] at horiginal
      obtain horiginal | rfl | horiginal := horiginal
      · exact .inl (hdone original horiginal)
      · exact .inr hstop
      · have := hlater original horiginal
        have := tag_stop_eq next
        exact .inr (by omega)
    · intro hclear
      exact (hclear next (by simp [hall])).resolve_left
        (not_le.mpr (hleft next List.mem_cons_self))

end Bettergram.Ui.Widgets

/-! ## Tags that are applied

One round of the loop applies a tag or leaves it out. What it copies and counts is what
the tags that are applied make of the text.
-/

namespace Bettergram.Ui.Widgets

open Text (QChar QString charAt EntityInText)

variable {text : QString} {originals : List Tag} {links : List EntityInText} {last : ℤ}
  {applied : List Applied} {s : Applying} {tag : MarkdownTag}

theorem endOf_concat (applied : List Applied) (a : Applied) :
    endOf (applied ++ [a]) = a.tagStop := by
  rw [endOf, List.getLast?_concat]

/-- The places of what has been copied do not change with a tag behind them. -/
theorem Source.image_concat {source : Source} {a : Applied} (h : source.start < a.tagStop) :
    Source.image text (applied ++ [a]) source = Source.image text applied source := by
  cases source with
  | inl original =>
    have hsum : sumBefore (counted text) (applied ++ [a]) original.offset =
        sumBefore (counted text) applied original.offset := sumBefore_concat_of_lt _ h
    rw [Source.image, Source.image, hsum]
  | inr b =>
    have hsum : sumBefore Applied.removed (applied ++ [a]) b.tagStart =
        sumBefore Applied.removed applied b.tagStart := sumBefore_concat_of_lt _ h
    rw [Source.image, Source.image, entityTag, entityTag, removedBefore, removedBefore, hsum]

theorem overcount_cases {a : Applied} (h : RemainingRight text a) :
    overcount text a = 0 ∨ (overcount text a = 1 ∧ a.start = a.stop) := by
  rw [overcount]
  split_ifs with htwice
  · have := htwice.2.2.1
    have := h.stop
    have := h.content
    exact .inr ⟨rfl, by omega⟩
  · exact .inl rfl

/-- What a tag that is applied adds to the result. -/
theorem addTag_eq (hbehind : s.textFrom ≤ tag.adjustedStart) (hcontent : 0 < tag.entityLength)
    (hordered : Ordered 0 applied s.textFrom)
    (htext : s.result.text = kept text 0 applied s.textFrom) {stop : ℕ}
    (hstop : tag.adjustedEnd = stop) {a : Applied}
    (ha : a = remaining text (kept text 0 applied tag.adjustedStart) tag) :
    (addTag text tag s).result.text =
        kept text 0 applied tag.adjustedStart ++ slice text a.start a.stop ∧
      (addTag text tag s).result.tags = s.result.tags ++
        (if a.start < a.stop then [(⟨(kept text 0 applied tag.adjustedStart).length,
          a.stop - a.start, tag.tag⟩ : Tag)] else []) ∧
      (addTag text tag s).textFrom = stop ∧
      (addTag text tag s).removed = s.removed + counted text a := by
  obtain ⟨hright, hentity⟩ := remaining_spec text _ hcontent hstop ha
  obtain ⟨-, htagStart, htagStop⟩ := tagStop_remaining hstop ha
  have hkept : (s.addOriginalTextUpTill text tag.adjustedStart).result.text =
      kept text 0 applied tag.adjustedStart := by
    rw [Applying.addOriginalTextUpTill, htext]
    exact kept_append_slice text hordered hbehind
  have htags : (s.addOriginalTextUpTill text tag.adjustedStart).result.tags = s.result.tags := rfl
  have hlength := hright.content
  have hremoved : (addTag text tag s).removed = s.removed + counted text a := by
    rw [addTag, hkept, hentity]
    simp only
    rw [counted, Applied.removed, htagStart, htagStop, ← hstop, MarkdownTag.adjustedEnd]
    have : (s.addOriginalTextUpTill text tag.adjustedStart).removed = s.removed := rfl
    omega
  have hfrom : (addTag text tag s).textFrom = stop := by
    rw [addTag]
    simp only
    rw [hstop, Int.toNat_natCast]
  have hresult : (addTag text tag s).result =
      if 0 < (a.stop : ℤ) - a.start - overcount text a then
        ⟨kept text 0 applied tag.adjustedStart ++
            slice text a.start (a.start + (a.stop - a.start - overcount text a)).toNat,
          s.result.tags ++ [⟨(kept text 0 applied tag.adjustedStart).length,
            a.stop - a.start - overcount text a, tag.tag⟩]⟩
      else (s.addOriginalTextUpTill text tag.adjustedStart).result := by
    rw [addTag, hkept, hentity]
    rfl
  refine ⟨?_, ?_, hfrom, hremoved⟩
  · rw [hresult]
    obtain hover | ⟨hover, hempty⟩ := overcount_cases hright
    · by_cases hlt : a.start < a.stop
      · have hend : ((a.start : ℤ) + (a.stop - a.start)).toNat = a.stop := by omega
        rw [hover, sub_zero, if_pos (by omega), hend]
      · rw [if_neg (by omega), hkept, slice, Nat.sub_eq_zero_of_le (by omega), List.take_zero,
          List.append_nil]
    · rw [if_neg (by omega), hkept, hempty, slice, Nat.sub_self, List.take_zero, List.append_nil]
  · rw [hresult]
    obtain hover | ⟨hover, hempty⟩ := overcount_cases hright
    · by_cases hlt : a.start < a.stop
      · rw [hover, sub_zero, if_pos (by omega), if_pos hlt]
      · rw [if_neg (by omega), if_neg hlt, htags, List.append_nil]
    · rw [if_neg (by omega), if_neg (by omega), htags, List.append_nil]

/-- A tag is applied. -/
theorem LoopRight.addTag (h : LoopRight text originals links tag.adjustedStart applied s)
    (hbehind : s.textFrom ≤ tag.adjustedStart) (hcontent : 0 < tag.entityLength) {stop : ℕ}
    (hstop : tag.adjustedEnd = stop) (hinside : stop ≤ text.length)
    (hpositive : ∀ original ∈ originals, 0 < original.length)
    (hclear : ∀ original ∈ s.originalTags, tag.adjustedEnd ≤ original.offset) {a : Applied}
    (ha : a = remaining text (kept text 0 applied tag.adjustedStart) tag) :
    LoopRight text originals links tag.adjustedStart (applied ++ [a]) (addTag text tag s) := by
  obtain ⟨hright, -⟩ := remaining_spec text _ hcontent hstop ha
  obtain ⟨htag, htagStart, htagStop⟩ := tagStop_remaining hstop ha
  obtain ⟨htext, htags, hfrom, hremoved⟩ :=
    addTag_eq hbehind hcontent h.ordered h.content hstop ha
  obtain ⟨done, sources, hcopied, hdone⟩ := h.copied
  have hpos := hright.pos
  have hordered : Ordered 0 applied a.tagStart := htagStart ▸ h.ordered.mono hbehind
  -- the places of what has been copied are the same as before
  have hstarts : ∀ source ∈ sources, source.stop ≤ a.tagStart ∧ source.start < a.tagStop := by
    intro source hsource
    obtain hmem | hmem := List.mem_append.mp (hcopied.perm.subset hsource)
    · obtain ⟨original, horiginal, rfl⟩ := List.mem_map.mp hmem
      have := hdone original horiginal
      have := hpositive original (hcopied.originals ▸ List.mem_append_left _ horiginal)
      have := tag_stop_eq original
      exact ⟨by simp only [Source.stop]; omega, by simp only [Source.start]; omega⟩
    · obtain ⟨b, hb, rfl⟩ := List.mem_map.mp hmem
      have := h.tagStop_le hb
      have := (h.ordered.mem hb).2.1.pos
      exact ⟨by simp only [Source.stop]; omega, by simp only [Source.start]; omega⟩
  have himage : (sources.filterMap (Source.image text (applied ++ [a]))) = s.result.tags := by
    rw [hcopied.tags]
    exact List.filterMap_congr fun source hsource => Source.image_concat (hstarts source hsource).2
  refine ⟨?_, ?_, ?_, ?_, ?_, h.links, ⟨done, sources ++ [.inr a], ⟨hcopied.originals, ?_, ?_, ?_⟩,
    hdone⟩, ?_⟩
  · rw [hfrom, ordered_concat]
    exact ⟨hordered, hright.inside, htagStop.le⟩
  · rw [hfrom, endOf_concat, htagStop]
  · rwa [hfrom]
  · rw [htext, hfrom, kept_concat, ← htagStop, htagStart]
    have hempty : slice text a.tagStop a.tagStop = [] := by
      rw [slice, Nat.sub_self, List.take_zero]
    rw [hempty, List.append_nil]
  · rw [hremoved, h.removed, List.map_append, List.sum_append, List.map_singleton,
      List.sum_singleton]
  · rw [List.filterMap_append, himage, htags]
    congr 1
    have hlength := kept_length hordered (show a.tagStart ≤ text.length by omega)
    have hsum : removedBefore (applied ++ [a]) a.tagStart = totalRemoved applied := by
      rw [removedBefore, sumBefore_concat_of_lt _ (by exact_mod_cast hpos)]
      refine sumBefore_eq_sum _ fun b hb => ?_
      exact_mod_cast (h.tagStop_le hb).trans (htagStart ▸ hbehind)
    have hentity : Source.image text (applied ++ [a]) (.inr a) =
        if a.start < a.stop then some ⟨(kept text 0 applied tag.adjustedStart).length,
          a.stop - a.start, tag.tag⟩ else none := by
      rw [Source.image, entityTag, hsum, htag, ← htagStart, hlength, Nat.cast_zero, sub_zero]
    rw [List.filterMap_cons, hentity]
    split_ifs <;> rfl
  · rw [List.map_append, List.map_singleton, ← List.append_assoc]
    exact hcopied.perm.append_right _
  · rw [List.pairwise_append]
    refine ⟨hcopied.apart, List.pairwise_singleton _ _, fun source hsource target htarget => ?_⟩
    rw [List.mem_singleton.mp htarget]
    exact (hstarts source hsource).1
  · intro original horiginal
    rw [hfrom, ← hstop]
    refine hclear original ?_
    exact horiginal


theorem dropWhile_dropWhile {α : Type} {p q : α → Bool} (h : ∀ a, p a = true → q a = true)
    (l : List α) : (l.dropWhile p).dropWhile q = l.dropWhile q := by
  induction l with
  | nil => rfl
  | cons a l ih =>
    by_cases hp : p a = true
    · rw [List.dropWhile_cons_of_pos hp, List.dropWhile_cons_of_pos (h a hp), ih]
    · rw [List.dropWhile_cons_of_neg hp]

/-- The links before a tag are passed. -/
theorem LoopRight.dropLinks {start : ℕ} (h : LoopRight text originals links start applied s) :
    LoopRight text originals links start applied
      { s with links := s.links.dropWhile fun link => link.stop ≤ start } := by
  obtain ⟨done, sources, hcopied, hdone⟩ := h.copied
  refine ⟨h.ordered, h.textFrom, h.inside, h.content, h.removed, fun offset hoffset => ?_,
    ⟨done, sources, ⟨hcopied.originals, hcopied.tags, hcopied.perm, hcopied.apart⟩, hdone⟩, h.behind⟩
  rw [← h.links offset hoffset]
  refine dropWhile_dropWhile (fun link hlink => ?_) _
  rw [decide_eq_true_eq] at hlink ⊢
  exact hlink.trans hoffset

/-- The tags that are applied, with the next one if it is. -/
def appliedWith (text : QString) (originals : List Tag) (links : List EntityInText)
    (applied : List Applied) (tag : MarkdownTag) : List Applied :=
  if Applies originals links (endOf applied) tag then
    applied ++ [remaining text (kept text 0 applied tag.adjustedStart) tag]
  else applied

/-- One round of the loop. -/
theorem LoopRight.applyTag (h : LoopRight text originals links last applied s)
    (horiginals : DisjointTags text originals) (hle : last ≤ tag.adjustedStart)
    (hplaced : Placed text tag) :
    LoopRight text originals links tag.adjustedStart
      (appliedWith text originals links applied tag) (applyTag text s tag) := by
  rw [Widgets.applyTag, appliedWith, ← h.textFrom]
  by_cases hfirst : (!tag.closed || decide (tag.adjustedStart < s.textFrom)) = true
  · rw [if_pos hfirst, if_neg]
    · exact h.mono _ hle
    · intro happlies
      have := happlies.behind
      rw [happlies.closed, Bool.not_true, Bool.false_or, decide_eq_true_eq] at hfirst
      omega
  rw [if_neg hfirst]
  rw [Bool.or_eq_true, not_or, Bool.not_eq_true', Bool.not_eq_false, decide_eq_true_eq,
    not_lt] at hfirst
  obtain ⟨hclosed, hbehind⟩ := hfirst
  by_cases hcontent : tag.entityLength ≤ 0
  · rw [if_pos hcontent, if_neg fun happlies => not_lt.mpr hcontent happlies.content]
    exact h.mono _ hle
  rw [if_neg hcontent]
  simp only
  have hadded := h.addOriginalTagsUpTill horiginals hle
  have hclear := h.clear_iff horiginals tag.adjustedEnd hle
  obtain ⟨done, sources, hcopied, -⟩ := h.copied
  have hleft := lt_stop_of_left horiginals hcopied.originals tag.adjustedStart
  have hfrom : (s.addOriginalTagsUpTill tag.adjustedStart).textFrom = s.textFrom := rfl
  have hmem : ∀ original ∈ (s.addOriginalTagsUpTill tag.adjustedStart).originalTags,
      original ∈ originals := fun original horiginal => by
    rw [hcopied.originals, List.mem_append]
    exact .inr ((List.dropWhile_sublist _).subset horiginal)
  rw [← hfrom] at hbehind ⊢
  generalize s.addOriginalTagsUpTill tag.adjustedStart = added at *
  by_cases hnext : (added.originalTags.head?.any fun original =>
      decide (original.offset < tag.adjustedEnd)) = true
  · rw [if_pos hnext, if_neg]
    · exact hadded
    · exact fun happlies => by
        rw [hclear.mpr happlies.clear] at hnext
        exact Bool.false_ne_true hnext
  rw [if_neg hnext]
  have hall := hclear.mp (Bool.eq_false_iff.mpr hnext)
  have hlinks := hadded.links tag.adjustedStart le_rfl
  have hdropped := hadded.dropLinks
  by_cases hlink : ((added.links.dropWhile fun link => decide
      (link.stop ≤ (tag.adjustedStart : ℤ))).head?.any fun link => intersectsPartially tag link) = true
  · rw [if_pos hlink, if_neg]
    · exact hdropped
    · exact fun happlies => by
        rw [hlinks, happlies.whole] at hlink
        exact Bool.false_ne_true hlink
  rw [if_neg hlink]
  have happlies : Applies originals links added.textFrom tag :=
    ⟨hclosed, hbehind, not_le.mp hcontent, hall, by rw [← hlinks]; exact Bool.eq_false_iff.mpr hlink⟩
  rw [if_pos happlies]
  obtain ⟨stop, hstop, -, hinside, -⟩ := hplaced.closing hclosed
  exact hdropped.addTag hbehind (not_le.mp hcontent) hstop hinside
    (fun original horiginal => (horiginals.inside original horiginal).2.1)
    (fun original horiginal => (hall original (hmem original horiginal)).resolve_left
      (not_le.mpr (hleft original horiginal))) rfl

/-- All rounds of the loop. -/
theorem LoopRight.foldl {tags : List MarkdownTag}
    (h : LoopRight text originals links last applied s) (horiginals : DisjointTags text originals)
    (hsorted : tags.Pairwise fun a b => a.adjustedStart ≤ b.adjustedStart)
    (hplaced : ∀ tag ∈ tags, Placed text tag) (hle : ∀ tag ∈ tags, last ≤ tag.adjustedStart)
    (hlast : last ≤ text.length) :
    LoopRight text originals links text.length
      (tags.foldl (appliedWith text originals links) applied) (tags.foldl (Widgets.applyTag text) s) := by
  induction tags generalizing last applied s with
  | nil => exact h.mono _ hlast
  | cons tag tags ih =>
    rw [List.forall_mem_cons] at hplaced hle
    rw [List.pairwise_cons] at hsorted
    have := hplaced.1.inside
    rw [List.foldl_cons, List.foldl_cons]
    exact ih (h.applyTag horiginals hle.1 hplaced.1) hsorted.2 hplaced.2
      (fun next hnext => by exact_mod_cast hsorted.1 next hnext) (by omega)

end Bettergram.Ui.Widgets
