import Bettergram.Ui.Text.CutPartFind

/-! # The parts of a text

Each call cuts characters off until none are left. What is left behind several cuts
is what is left behind one, so when every cut is right, each part has what the
entities of the text cover of it.
-/

namespace Bettergram.Ui.Text

variable {q : Tables} {emoji : EmojiFind} {limit : ℕ} {left : TextWithEntities}

/-! ## Progress -/

theorem markGoodAsLevel_pos (left : TextWithEntities) {ch : ℕ} (currentEntity newLevel : ℕ)
    {good : Good} (hch : 0 < ch) (hgood : 0 < good.goodLevel → 0 < good.good) :
    0 < (markGoodAsLevel left ch currentEntity newLevel good).good := by
  rw [markGoodAsLevel]
  split_ifs with hbetter
  · exact hgood (by omega)
  · exact hch

/-- A cut takes characters off. -/
theorem findCut_pos (hlimit : 0 < limit)
    (hemoji : ∀ rest length, emoji.find rest = some length → 2 * length ≤ limit) (fuel : ℕ)
    {ch s currentEntity : ℕ} {good found : Good} (hch : 0 < s → 0 < ch) (hs : s ≤ limit)
    (hgood : 0 < good.goodLevel → 0 < good.good)
    (h : findCut q emoji limit left fuel ch s currentEntity good = some found) :
    0 < found.good := by
  induction fuel generalizing ch s currentEntity good with
  | zero => cases h
  | succ fuel ih =>
    have hpos := advance_pos emoji (left.text.drop ch)
    have hcount := advance_count_le hemoji (left.text.drop ch)
    rw [findCut] at h
    by_cases hlt : ch < left.text.length
    swap
    · rw [if_neg hlt] at h
      cases h
    rw [if_pos hlt] at h
    simp only at h
    by_cases hhalf : limit / 2 < s
    · have hmarked := markGoodAsLevel_pos left (skipEntities left ch currentEntity)
        (levelAt q left ch (skipEntities left ch currentEntity)) (hch (by omega)) hgood
      rw [if_pos hhalf] at h
      split_ifs at h with hlast
      · cases h
        exact hmarked
      · exact ih (fun _ => by omega) (by omega) (fun _ => hmarked) h
    · rw [if_neg hhalf, if_neg (by omega)] at h
      exact ih (fun _ => by omega) (by omega) hgood h

/-- A call of a text with characters cuts some of them off. -/
theorem cutPart_progress (q : Tables) (hlimit : 0 < limit)
    (hemoji : ∀ rest length, emoji.find rest = some length → 2 * length ≤ limit)
    (hne : left.text ≠ []) :
    ∃ sending rest, CutPart q emoji limit left = some (sending, rest) ∧
      sending.text ++ rest.text = left.text ∧ rest.text.length < left.text.length := by
  have hlength := List.length_pos_iff.mpr hne
  rw [CutPart, if_neg (not_or.mpr ⟨hne, hlimit.ne'⟩)]
  cases hfind : findCut q emoji limit left left.text.length 0 0 0 ⟨0, 0, 0, false, false⟩ with
  | none => exact ⟨left, ⟨[], []⟩, rfl, List.append_nil _, hlength⟩
  | some good =>
    have hpos : 0 < good.good := findCut_pos hlimit hemoji left.text.length (fun h => h)
      (Nat.zero_le _) (fun h => h) hfind
    obtain ⟨hsending, hrest⟩ := splitAt_texts left good
    refine ⟨(splitAt left good).1, (splitAt left good).2, rfl, ?_, ?_⟩
    · rw [hsending, hrest, List.take_append_drop]
    · rw [hrest, List.length_drop]
      omega

/-- The calls come to an end, and the parts together are the text. -/
theorem cutParts_texts (q : Tables) (hlimit : 0 < limit)
    (hemoji : ∀ rest length, emoji.find rest = some length → 2 * length ≤ limit) (fuel : ℕ)
    (hfuel : left.text.length < fuel) :
    ∃ parts, cutParts q emoji limit fuel left = some parts ∧
      (parts.map TextWithEntities.text).flatten = left.text := by
  induction fuel generalizing left with
  | zero => exact absurd hfuel (Nat.not_lt_zero _)
  | succ fuel ih =>
    rw [cutParts]
    by_cases hne : left.text = []
    · rw [CutPart, if_pos (.inl hne)]
      exact ⟨[], rfl, hne.symm⟩
    · obtain ⟨sending, rest, hcut, htext, hlt⟩ := cutPart_progress q hlimit hemoji hne
      obtain ⟨parts, hparts, hflatten⟩ := ih (by omega : rest.text.length < fuel)
      refine ⟨sending :: parts, ?_, ?_⟩
      · rw [hcut]
        simp only
        rw [hparts, Option.map_some]
      · rw [List.map_cons, List.flatten_cons, hflatten, htext]

/-! ## Cuts one after the other -/

theorem backOf_eq_some {cut : ℤ} {entity back : EntityInText} (h : backOf cut entity = some back) :
    cut < entity.stop ∧ back.offset = max 0 (entity.offset - cut) ∧
      back.stop = entity.stop - cut := by
  have hstop : entity.stop = entity.offset + entity.length := rfl
  rw [backOf] at h
  split_ifs at h with hbefore hbehind hbreak <;> cases h
  · exact ⟨by omega, by simp only; omega, by simp only [EntityInText.stop]; omega⟩
  · exact ⟨by omega, by simp only; omega, by simp only [EntityInText.stop]; omega⟩

/-- What is left behind a cut has its entities inside and apart. -/
theorem disjoint_backPart (h : Disjoint left.text left.entities) (cut : ℕ) :
    Disjoint (backPart cut left).text (backPart cut left).entities := by
  constructor
  · rw [backPart, List.pairwise_filterMap]
    refine h.apart.imp fun {a b} hab back hback back' hback' => ?_
    have := backOf_eq_some hback
    have := backOf_eq_some hback'
    omega
  · intro back hback
    obtain ⟨entity, hentity, hback⟩ := List.mem_filterMap.mp hback
    obtain ⟨hstart, hlength, hstop⟩ := h.inside entity hentity
    have hlt := backOf_eq_some hback
    have hback' : back.stop = back.offset + back.length := rfl
    have hentity' : entity.stop = entity.offset + entity.length := rfl
    rw [backPart, List.length_drop]
    omega

theorem backOf_of_le {cut : ℤ} {entity : EntityInText} (h : entity.stop ≤ cut) :
    backOf cut entity = none :=
  if_pos h

theorem backOf_of_behind {cut : ℤ} {entity : EntityInText} (hstop : cut < entity.stop)
    (h : cut ≤ entity.offset) :
    backOf cut entity = some { entity with offset := entity.offset - cut } := by
  rw [backOf, if_neg (not_le.mpr hstop), if_pos h]

theorem backOf_of_inside {cut : ℤ} {entity : EntityInText} (hstop : cut < entity.stop)
    (h : entity.offset < cut) : backOf cut entity =
      if Breakable entity then some { entity with offset := 0, length := entity.stop - cut }
      else none := by
  rw [backOf, if_neg (not_le.mpr hstop), if_neg (not_le.mpr h)]

/-- Two cuts are one. -/
theorem backOf_backOf {first second : ℕ} (hsecond : 0 < second) (entity : EntityInText) :
    (backOf first entity).bind (backOf second) = backOf (first + second : ℕ) entity := by
  have hlength : entity.stop = entity.offset + entity.length := rfl
  rw [Nat.cast_add]
  by_cases hstop : entity.stop ≤ first
  · rw [backOf_of_le hstop, backOf_of_le (by omega), Option.bind_none]
  by_cases hoffset : (first : ℤ) ≤ entity.offset
  · rw [backOf_of_behind (by omega) hoffset, Option.bind_some]
    obtain ⟨moved, hmoved⟩ : ∃ moved : EntityInText,
        moved = { entity with offset := entity.offset - first } := ⟨_, rfl⟩
    have hoffset' : moved.offset = entity.offset - first := by rw [hmoved]
    have hstop' : moved.stop = entity.stop - first := by
      rw [hmoved, EntityInText.stop, EntityInText.stop]
      simp only
      omega
    rw [← hmoved]
    by_cases hbefore : entity.stop ≤ first + second
    · rw [backOf_of_le (by omega), backOf_of_le hbefore]
    by_cases hbehind : (first + second : ℤ) ≤ entity.offset
    · rw [backOf_of_behind (by omega) (by omega), backOf_of_behind (by omega) hbehind, hoffset',
        sub_sub, hmoved]
    · rw [backOf_of_inside (by omega) (by omega), backOf_of_inside (by omega) (by omega), hstop',
        sub_sub, hmoved]
      rfl
  rw [backOf_of_inside (by omega) (by omega)]
  by_cases hbreak : Breakable entity
  · obtain ⟨clipped, hclipped⟩ : ∃ clipped : EntityInText,
        clipped = { entity with offset := 0, length := entity.stop - first } := ⟨_, rfl⟩
    have hoffset' : clipped.offset = 0 := by rw [hclipped]
    have hstop' : clipped.stop = entity.stop - first := by rw [hclipped, EntityInText.stop, zero_add]
    have hbreak' : Breakable clipped := by rwa [hclipped]
    rw [if_pos hbreak, ← hclipped, Option.bind_some]
    by_cases hbefore : entity.stop ≤ first + second
    · rw [backOf_of_le (by omega), backOf_of_le hbefore]
    · rw [backOf_of_inside (by omega) (by omega), backOf_of_inside (by omega) (by omega),
        if_pos hbreak, if_pos hbreak', hstop', sub_sub, hclipped]
  · rw [if_neg hbreak, Option.bind_none]
    by_cases hbefore : entity.stop ≤ first + second
    · rw [backOf_of_le hbefore]
    · rw [backOf_of_inside (by omega) (by omega), if_neg hbreak]

theorem restOf_add (text : TextWithEntities) {start cut : ℕ} (hcut : 0 < cut) :
    restOf (start + cut) text = backPart cut (restOf start text) := by
  rw [restOf, if_neg (by omega), restOf]
  split_ifs with hstart
  · rw [hstart, Nat.zero_add]
  · rw [backPart, backPart, backPart, List.drop_drop, List.filterMap_filterMap]
    simp only [backOf_backOf hcut]

/-! ## The parts -/

/-- Behind cuts the entities stay inside and apart. -/
theorem CutReached.disjoint {text : TextWithEntities} (h : Disjoint text.text text.entities)
    (hback : ∀ left, CutReached q emoji limit text left → Disjoint left.text left.entities →
      ∀ sending rest, CutPart q emoji limit left = some (sending, rest) →
        CutRight emoji limit left sending rest)
    (hreached : CutReached q emoji limit text left) : Disjoint left.text left.entities := by
  induction hreached with
  | start => exact h
  | @next left sending rest hleft hcut ih =>
    obtain ⟨cut, -, -, hrest⟩ := hback left hleft ih sending rest hcut
    rw [hrest]
    exact disjoint_backPart ih cut

/-- The cuts that are right give the parts of the text. -/
theorem cutParts_parts {text : TextWithEntities} (hlimit : limit ≠ 0)
    (hright : ∀ left, CutReached q emoji limit text left → ∀ sending rest,
      CutPart q emoji limit left = some (sending, rest) → CutRight emoji limit left sending rest)
    (fuel : ℕ) {start : ℕ} {parts : List TextWithEntities}
    (hreached : CutReached q emoji limit text (restOf start text))
    (hparts : cutParts q emoji limit fuel (restOf start text) = some parts) :
    Parts emoji limit text start parts := by
  induction fuel generalizing start parts with
  | zero => cases hparts
  | succ fuel ih =>
    rw [cutParts] at hparts
    cases hcut : CutPart q emoji limit (restOf start text) with
    | none =>
      rw [hcut] at hparts
      cases hparts
      rw [CutPart] at hcut
      split_ifs at hcut with hempty
      · exact hempty.resolve_right hlimit
      · cases hfind : findCut q emoji limit (restOf start text) (restOf start text).text.length
            0 0 0 ⟨0, 0, 0, false, false⟩ with
        | none => rw [hfind] at hcut; cases hcut
        | some good => rw [hfind] at hcut; cases hcut
    | some next =>
      obtain ⟨sending, rest⟩ := next
      rw [hcut] at hparts
      obtain ⟨later, hlater, rfl⟩ := Option.map_eq_some_iff.mp hparts
      obtain ⟨cut, hplace, hsending, hrest⟩ := hright _ hreached sending rest hcut
      have hnext := hreached.next hcut
      rw [hrest, ← restOf_add text hplace.pos] at hlater hnext
      exact ⟨cut, hplace, hsending, ih hnext hlater⟩

/-- The calls come to an end with all of the text in the parts; each cut is right if and only
if in each call some place is free of an entity that cannot be split, or no entity starts
behind the last place; then the parts have what the entities cover of them. -/
theorem cutParts_right_iff (q : Tables) (emoji : EmojiFind) (limit : ℕ) (hlimit : 0 < limit)
    (hemoji : ∀ rest length, emoji.find rest = some length → 2 * length ≤ limit)
    (text : TextWithEntities) (h : Disjoint text.text text.entities) :
    ∃ parts, cutParts q emoji limit (text.text.length + 1) text = some parts ∧
      (parts.map TextWithEntities.text).flatten = text.text ∧
      ((∀ left, CutReached q emoji limit text left → ∀ sending rest,
          CutPart q emoji limit left = some (sending, rest) →
            CutRight emoji limit left sending rest) ↔
        ∀ left, CutReached q emoji limit text left → CutMeets emoji limit left) ∧
      ((∀ left, CutReached q emoji limit text left → CutMeets emoji limit left) →
        Parts emoji limit text 0 parts) := by
  obtain ⟨parts, hparts, htexts⟩ :=
    cutParts_texts q hlimit hemoji (text.text.length + 1) (Nat.lt_succ_self _)
  have hiff : (∀ left, CutReached q emoji limit text left → ∀ sending rest,
        CutPart q emoji limit left = some (sending, rest) →
          CutRight emoji limit left sending rest) ↔
      ∀ left, CutReached q emoji limit text left → CutMeets emoji limit left := by
    constructor
    · intro hright left hreached
      by_cases hne : left.text = []
      · exact .inl ⟨0, by rw [hne]; exact Place.start, Nat.zero_le _⟩
      · obtain ⟨sending, rest, hcut, -, -⟩ := cutPart_progress q hlimit hemoji hne
        have hdisjoint := hreached.disjoint h fun left hleft _ => hright left hleft
        exact (cutPart_iff hdisjoint hlimit hemoji hcut).mp (hright left hreached _ _ hcut)
    · intro hmeets left hreached sending rest hcut
      have hdisjoint := hreached.disjoint h fun left hleft hdisjoint sending rest hcut =>
        (cutPart_iff hdisjoint hlimit hemoji hcut).mpr (hmeets left hleft)
      exact (cutPart_iff hdisjoint hlimit hemoji hcut).mpr (hmeets left hreached)
  exact ⟨parts, hparts, htexts, hiff, fun hmeets =>
    cutParts_parts hlimit.ne' (hiff.mpr hmeets) _ CutReached.start hparts⟩


/-- A text without emoji. -/
def noEmoji : EmojiFind where
  find _ := none
  pos _ _ h := by cases h
  le _ _ h := by cases h
  whole _ _ h := by cases h

theorem cutParts_right_iff_word :
    ∃ parts, cutParts plainTables noEmoji 2 4 ⟨[97, 98, 99], [⟨.bold, 0, 1, []⟩]⟩ = some parts ∧
      (parts.map TextWithEntities.text).flatten = [97, 98, 99] ∧
      ((∀ left, CutReached plainTables noEmoji 2 ⟨[97, 98, 99], [⟨.bold, 0, 1, []⟩]⟩ left →
          ∀ sending rest, CutPart plainTables noEmoji 2 left = some (sending, rest) →
            CutRight noEmoji 2 left sending rest) ↔
        ∀ left, CutReached plainTables noEmoji 2 ⟨[97, 98, 99], [⟨.bold, 0, 1, []⟩]⟩ left →
          CutMeets noEmoji 2 left) ∧
      ((∀ left, CutReached plainTables noEmoji 2 ⟨[97, 98, 99], [⟨.bold, 0, 1, []⟩]⟩ left →
          CutMeets noEmoji 2 left) →
        Parts noEmoji 2 ⟨[97, 98, 99], [⟨.bold, 0, 1, []⟩]⟩ 0 parts) :=
  cutParts_right_iff plainTables noEmoji 2 (by decide) (fun _ _ h => by cases h)
    ⟨[97, 98, 99], [⟨.bold, 0, 1, []⟩]⟩ (by decide)

/-- `abcdef` with `abcde` bold and `f` italic. -/
def boldAndItalic : TextWithEntities :=
  ⟨[97, 98, 99, 100, 101, 102], [⟨.bold, 0, 5, []⟩, ⟨.italic, 5, 1, []⟩]⟩

/-- With four characters in a part, the italic letter is not found in the second one. -/
theorem cutParts_misplaces_entity :
    ¬ ∀ (q : Tables) (emoji : EmojiFind) (limit : ℕ), 0 < limit →
      (∀ rest length, emoji.find rest = some length → 2 * length ≤ limit) →
      ∀ text : TextWithEntities, Disjoint text.text text.entities →
        ∃ parts, cutParts q emoji limit (text.text.length + 1) text = some parts ∧
          (parts.map TextWithEntities.text).flatten = text.text ∧
          Parts emoji limit text 0 parts := by
  intro h
  obtain ⟨parts, hparts, -, hright⟩ := h plainTables noEmoji 4 (by decide)
    (fun _ _ h => by cases h) boldAndItalic (by decide)
  obtain rfl : [⟨[97, 98, 99, 100], []⟩, ⟨[101, 102], [⟨.italic, 5, 1, []⟩]⟩] = parts :=
    Option.some.inj hparts
  obtain ⟨cut, hcut, hfirst, cut', -, hsecond, -⟩ := hright
  have hlength : ([97, 98, 99, 100] : QString).length = (boldAndItalic.text.take cut).length :=
    congrArg (fun part => part.text.length) hfirst
  have hle : cut = 4 := by
    rw [List.length_take] at hlength
    have : boldAndItalic.text.length = 6 := rfl
    simp only [List.length_cons, List.length_nil] at hlength
    omega
  subst hle
  have hback : (restOf (0 + 4) boldAndItalic).entities = [⟨.italic, 1, 1, []⟩] := by decide
  have hentities : [(⟨.italic, 5, 1, []⟩ : EntityInText)] =
      [(⟨.italic, 1, 1, []⟩ : EntityInText)].filterMap (frontOf cut') := by
    have := congrArg TextWithEntities.entities hsecond
    rwa [frontPart, hback] at this
  have hin : (⟨.italic, 5, 1, []⟩ : EntityInText) ∈
      [(⟨.italic, 1, 1, []⟩ : EntityInText)].filterMap (frontOf cut') := by
    rw [← hentities]
    exact List.mem_singleton_self _
  obtain ⟨entity, hentity, hfront⟩ := List.mem_filterMap.mp hin
  obtain rfl := List.mem_singleton.mp hentity
  rw [frontOf] at hfront
  split_ifs at hfront <;> cases hfront

end Bettergram.Ui.Text
