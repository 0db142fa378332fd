import Bettergram.Ui.Text.CutPartEntities

/-! # The place for a cut

A cut comes to a place that is not inside an entity that cannot be broken, or else
to the last place that is left; there the later entities keep the offsets they had.
-/

namespace Bettergram.Ui.Text

variable {q : Tables} {emoji : EmojiFind} {limit : ℕ} {left : TextWithEntities}

/-! ## The place for the cut -/

/-- A place the cut may come to. -/
structure Candidate (emoji : EmojiFind) (limit : ℕ) (left : TextWithEntities) (ch : ℕ) : Prop where
  place : ∃ s, Place emoji left.text ch s ∧ limit / 2 < s ∧ s ≤ limit
  inside : ch < left.text.length

/-- What has been marked before `ch`. -/
structure Marked (emoji : EmojiFind) (limit : ℕ) (left : TextWithEntities) (ch : ℕ) (good : Good) :
    Prop where
  high : 0 < good.goodLevel → Candidate emoji limit left good.good ∧
    GoodAt left good good.good ∧ ¬ InUnbreakable left.entities good.good
  low : good.goodLevel = 0 → ∀ place, Candidate emoji limit left place → place < ch →
    InUnbreakable left.entities place

theorem levelAt_eq_zero_iff (q : Tables) (left : TextWithEntities) (ch currentEntity : ℕ) :
    levelAt q left ch currentEntity = 0 ↔
      isInEntity left ch currentEntity = true ∧ canBreakEntity left currentEntity = false := by
  have hiff : (isInEntity left ch currentEntity && !canBreakEntity left currentEntity) = true ↔
      isInEntity left ch currentEntity = true ∧ canBreakEntity left currentEntity = false := by
    rw [Bool.and_eq_true, Bool.not_eq_true']
  rw [levelAt]
  by_cases hin : (isInEntity left ch currentEntity && !canBreakEntity left currentEntity) = true
  · rw [if_pos hin]
    exact iff_of_true rfl (hiff.mp hin)
  · rw [if_neg hin]
    refine iff_of_false ?_ (mt hiff.mpr hin)
    split_ifs <;> simp

/-- Marking a candidate; without a better one it is marked. -/
theorem Marked.mark (q : Tables) (h : Disjoint left.text left.entities) {ch : ℕ} {good : Good}
    (hmarked : Marked emoji limit left ch good) (hch : Candidate emoji limit left ch) {marked : Good}
    (heq : marked = markGoodAsLevel left ch (endedBefore left ch)
      (levelAt q left ch (endedBefore left ch)) good) :
    Marked emoji limit left (ch + 1) marked ∧ (marked.goodLevel = 0 → GoodAt left marked ch) := by
  have hlevel := levelAt_eq_zero_iff q left ch (endedBefore left ch)
  rw [← inUnbreakable_iff h] at hlevel
  rw [markGoodAsLevel] at heq
  split_ifs at heq with hbetter
  · subst heq
    refine ⟨⟨hmarked.high, fun hzero => ?_⟩, fun hzero => ?_⟩ <;> omega
  · have hat : GoodAt left marked ch := by
      rw [heq]
      exact ⟨rfl, rfl, rfl, rfl⟩
    have hgood : marked.good = ch := hat.place
    have hnew : marked.goodLevel = levelAt q left ch (endedBefore left ch) := by rw [heq]
    refine ⟨⟨fun hpos => ?_, fun hzero place hplace hlt => ?_⟩, fun _ => hat⟩
    · rw [hgood]
      exact ⟨hch, hat, fun hin => by rw [hnew, hlevel.mpr hin] at hpos; exact lt_irrefl 0 hpos⟩
    · rw [hnew] at hzero
      obtain hlt | rfl := Nat.lt_succ_iff_lt_or_eq.mp hlt
      · exact hmarked.low (by omega) place hplace hlt
      · exact hlevel.mp hzero

/-- No candidate is between a place and the next one. -/
theorem Marked.next {ch s : ℕ} {good : Good} (hplace : Place emoji left.text ch s)
    (hlt : ch < left.text.length) (hmarked : Marked emoji limit left (ch + 1) good) :
    Marked emoji limit left (ch + (advance emoji (left.text.drop ch)).1) good := by
  refine ⟨hmarked.high, fun hzero place hcandidate hplaceLt => ?_⟩
  refine hmarked.low hzero place hcandidate ?_
  obtain ⟨s', hplace', -⟩ := hcandidate.place
  have := hplace.compare hplace' hlt
  omega

/-- The loop ends at the end of a text that fits, or where the text gets too long. -/
theorem findCut_spec (q : Tables) (h : Disjoint left.text left.entities) (hlimit : 0 < limit)
    (hemoji : ∀ rest length, emoji.find rest = some length → 2 * length ≤ limit) (fuel : ℕ)
    {ch s currentEntity : ℕ} {good : Good} (hplace : Place emoji left.text ch s) (hs : s ≤ limit)
    (hfuel : left.text.length ≤ ch + fuel) (hcurrent : currentEntity ≤ endedBefore left ch)
    (hmarked : Marked emoji limit left ch good) :
    (findCut q emoji limit left fuel ch s currentEntity good = none ∧
      ∃ s', Place emoji left.text left.text.length s' ∧ s' ≤ limit) ∨
    ∃ good' last s', findCut q emoji limit left fuel ch s currentEntity good = some good' ∧
      Place emoji left.text last s' ∧ Candidate emoji limit left last ∧
      limit < s' + (advance emoji (left.text.drop last)).2 ∧
      Marked emoji limit left (last + 1) good' ∧
      (good'.goodLevel = 0 → GoodAt left good' last) := by
  induction fuel generalizing ch s currentEntity good with
  | zero =>
    have hend : ch = left.text.length := le_antisymm hplace.le_length hfuel
    exact .inl ⟨rfl, s, hend ▸ hplace, hs⟩
  | succ fuel ih =>
    rw [findCut]
    by_cases hlt : ch < left.text.length
    swap
    · rw [if_neg hlt]
      have hend : ch = left.text.length := le_antisymm hplace.le_length (not_lt.mp hlt)
      exact .inl ⟨rfl, s, hend ▸ hplace, hs⟩
    rw [if_pos hlt, skipEntities_eq hcurrent]
    simp only
    have hne : left.text.drop ch ≠ [] := by
      rw [Ne, List.drop_eq_nil_iff]
      omega
    have hpos := advance_pos emoji (left.text.drop ch)
    have hcountPos := advance_count_pos emoji hne
    have hcount := advance_count_le hemoji (left.text.drop ch)
    -- the mark at this place, whether it is a candidate or not
    obtain ⟨marked, hmarkedEq⟩ : ∃ marked, marked = if limit / 2 < s then
        markGoodAsLevel left ch (endedBefore left ch)
          (levelAt q left ch (endedBefore left ch)) good else good := ⟨_, rfl⟩
    rw [← hmarkedEq]
    have hnew : Marked emoji limit left (ch + 1) marked ∧
        (limit / 2 < s → marked.goodLevel = 0 → GoodAt left marked ch) := by
      split_ifs at hmarkedEq with hhalf
      · obtain ⟨hnext, hat⟩ := hmarked.mark q h ⟨⟨s, hplace, hhalf, hs⟩, hlt⟩ hmarkedEq
        exact ⟨hnext, fun _ => hat⟩
      · subst hmarkedEq
        refine ⟨⟨hmarked.high, fun hzero place hcandidate hplaceLt => ?_⟩,
          fun hno => absurd hno hhalf⟩
        obtain hbefore | rfl := Nat.lt_succ_iff_lt_or_eq.mp hplaceLt
        · exact hmarked.low hzero place hcandidate hbefore
        · obtain ⟨s', hplace', hhalf', -⟩ := hcandidate.place
          have := hplace.compare hplace' hlt
          omega
    by_cases hlast : limit ≤ s + (advance emoji (left.text.drop ch)).2 - 1
    · rw [if_pos hlast]
      have hhalf : limit / 2 < s := by omega
      exact .inr ⟨marked, ch, s, rfl, hplace, ⟨⟨s, hplace, hhalf, hs⟩, hlt⟩, by omega, hnew.1,
        hnew.2 hhalf⟩
    · rw [if_neg hlast]
      exact ih (hplace.next hlt) (by omega) (by omega)
        (endedBefore_mono (by omega)) (hnew.1.next hplace hlt)

/-! ## One call -/

/-- A text that fits is one part. -/
theorem frontPart_length (h : Disjoint left.text left.entities) :
    frontPart left.text.length left = left ∧ backPart left.text.length left = ⟨[], []⟩ := by
  have hfront : left.entities.filterMap (frontOf left.text.length) = left.entities :=
    filterMap_eq_self fun entity hentity => if_pos (h.inside entity hentity).2.2
  have hback : left.entities.filterMap (backOf left.text.length) = [] := by
    rw [List.filterMap_eq_nil_iff]
    exact fun entity hentity => if_pos (h.inside entity hentity).2.2
  rw [frontPart, backPart, hfront, hback, List.take_length, List.drop_length]
  exact ⟨rfl, rfl⟩

/-- What the condition comes to when the text does not fit, at the last place within the
limit. -/
theorem cutMeets_iff {last s : ℕ} (hplace : Place emoji left.text last s)
    (hinside : last < left.text.length) (hs : s ≤ limit)
    (hover : limit < s + (advance emoji (left.text.drop last)).2) :
    CutMeets emoji limit left ↔
      (∃ ch, Candidate emoji limit left ch ∧ ¬ InUnbreakable left.entities ch) ∨
      ∀ entity ∈ left.entities, entity.offset < last := by
  constructor
  · rintro (⟨s', hend, hs'⟩ | ⟨ch, s', hch, hin, hhalf, hs', hnot⟩ | hall)
    · have := hplace.compare hend hinside
      omega
    · exact .inl ⟨ch, ⟨⟨s', hch, hhalf, hs'⟩, hin⟩, hnot⟩
    · exact .inr (hall last s hplace hinside hs hover)
  · rintro (⟨ch, ⟨⟨s', hch, hhalf, hs'⟩, hin⟩, hnot⟩ | hall)
    · exact .inr (.inl ⟨ch, s', hch, hin, hhalf, hs', hnot⟩)
    · refine .inr (.inr fun ch s' hch hin hs' hover' => ?_)
      have hle : ch = last := by
        have := hplace.compare hch hinside
        have := hch.compare hplace hin
        omega
      rw [hle]
      exact hall

/-- A cut at the last place, when each is inside an entity that cannot be broken. -/
theorem cutRight_iff_last (h : Disjoint left.text left.entities) {good : Good} {last s : ℕ}
    (hplace : Place emoji left.text last s) (hinside : last < left.text.length)
    (hpos : 0 < s) (hs : s ≤ limit) (hgood : GoodAt left good last)
    (hin : InUnbreakable left.entities last) :
    CutRight emoji limit left (splitAt left good).1 (splitAt left good).2 ↔
      ∀ entity ∈ left.entities, entity.offset < last := by
  have hlast : 0 < last := by
    have := hplace.eq_zero_or_pos
    omega
  obtain ⟨hfront, hback⟩ := splitAt_inside h hlast hgood hin
  rw [← hback]
  constructor
  · rintro ⟨cut, ⟨⟨s', -, hcut⟩, -, -⟩, hsending, hleft⟩
    have htexts : (left.text.take last).length = (left.text.take cut).length := by
      have := congrArg TextWithEntities.text (hfront.symm.trans hsending)
      exact congrArg List.length this
    have hle := hcut.le_length
    rw [List.length_take, List.length_take, min_eq_left hinside.le, min_eq_left hle] at htexts
    rw [hleft, htexts]
  · exact fun hleft => ⟨last, hplace.cut hs hlast, hfront, hleft⟩

/-- What a call of a text with characters comes to. -/
theorem cutPart_iff (h : Disjoint left.text left.entities) (hlimit : 0 < limit)
    (hemoji : ∀ rest length, emoji.find rest = some length → 2 * length ≤ limit)
    {sending rest : TextWithEntities} (hcut : CutPart q emoji limit left = some (sending, rest)) :
    CutRight emoji limit left sending rest ↔ CutMeets emoji limit left := by
  have hstart : Marked emoji limit left 0 ⟨0, 0, 0, false, false⟩ :=
    ⟨fun hno => absurd hno (lt_irrefl 0), fun _ place _ hlt => absurd hlt (Nat.not_lt_zero place)⟩
  rw [CutPart] at hcut
  split_ifs at hcut with hempty
  have hlength := List.length_pos_iff.mpr (not_or.mp hempty).1
  obtain ⟨hnone, s, hplace, hs⟩ | ⟨good, last, s, hsome, hplace, hlast, hover, hmarked, hat⟩ :=
    findCut_spec q h hlimit hemoji left.text.length Place.start (Nat.zero_le _) (by omega)
      (Nat.zero_le _) hstart
  · obtain ⟨hfront, hback⟩ := frontPart_length h
    rw [hnone, Option.some_inj, Prod.mk.injEq] at hcut
    rw [← hcut.1, ← hcut.2]
    exact iff_of_true ⟨left.text.length, hplace.cut hs hlength, hfront.symm, hback.symm⟩
      (.inl ⟨s, hplace, hs⟩)
  · rw [hsome, Option.some_inj] at hcut
    have hinside := hlast.inside
    obtain ⟨hhalf, hs⟩ : limit / 2 < s ∧ s ≤ limit := by
      obtain ⟨s', hplace', hhalf, hs⟩ := hlast.place
      rw [hplace.unique hplace' hinside]
      exact ⟨hhalf, hs⟩
    rw [cutMeets_iff hplace hinside hs hover]
    obtain hzero | hpos := Nat.eq_zero_or_pos good.goodLevel
    · have hall := hmarked.low hzero
      have hright := cutRight_iff_last h hplace hinside (by omega) hs (hat hzero)
        (hall last hlast (Nat.lt_succ_self last))
      rw [hcut] at hright
      rw [hright]
      refine ⟨.inr, ?_⟩
      rintro (⟨ch, hcandidate, hnot⟩ | hbefore)
      · refine absurd (hall ch hcandidate ?_) hnot
        obtain ⟨s', hch, -, hs'⟩ := hcandidate.place
        have := hplace.compare hch hinside
        omega
      · exact hbefore
    · obtain ⟨hcandidate, hgood, hnot⟩ := hmarked.high hpos
      obtain ⟨s', hch, hhalf', hs'⟩ := hcandidate.place
      have hgoodPos : 0 < good.good := by
        have := hch.eq_zero_or_pos
        omega
      rw [splitAt_right h hgood hnot, Prod.mk.injEq] at hcut
      rw [← hcut.1, ← hcut.2]
      exact iff_of_true ⟨good.good, hch.cut hs' hgoodPos, rfl, rfl⟩
        (.inl ⟨good.good, hcandidate, hnot⟩)

end Bettergram.Ui.Text
