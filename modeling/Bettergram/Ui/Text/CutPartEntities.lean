import Bettergram.Ui.Text.CutPart

/-! # The entities at a cut

The entities that end at a place or before are the first ones; the next one is the
only one that may contain the place.
-/

namespace Bettergram.Ui.Text

variable {emoji : EmojiFind} {left : TextWithEntities}

/-- The number of entities that end at a place or before. -/
def endedBefore (left : TextWithEntities) (ch : ℕ) : ℕ :=
  (left.entities.takeWhile fun entity => entity.stop ≤ (ch : ℤ)).length

/-! ## Skipping -/

theorem takeWhile_drop {α : Type} (p : α → Bool) {l : List α} {n : ℕ}
    (h : n ≤ (l.takeWhile p).length) : (l.drop n).takeWhile p = (l.takeWhile p).drop n := by
  induction n generalizing l with
  | zero => rfl
  | succ n ih =>
    cases l with
    | nil => rfl
    | cons a l =>
      by_cases ha : p a = true
      · rw [List.takeWhile_cons_of_pos ha, List.length_cons] at h
        rw [List.takeWhile_cons_of_pos ha, List.drop_succ_cons, List.drop_succ_cons]
        exact ih (by omega)
      · rw [List.takeWhile_cons_of_neg ha] at h
        exact absurd h (by simp)

theorem skipEntities_eq {ch currentEntity : ℕ} (h : currentEntity ≤ endedBefore left ch) :
    skipEntities left ch currentEntity = endedBefore left ch := by
  rw [skipEntities, takeWhile_drop _ h, List.length_drop]
  exact Nat.add_sub_cancel' h

theorem endedBefore_mono {a b : ℕ} (h : a ≤ b) : endedBefore left a ≤ endedBefore left b := by
  rw [endedBefore, endedBefore]
  induction left.entities with
  | nil => exact le_rfl
  | cons entity rest ih =>
    by_cases ha : entity.stop ≤ (a : ℤ)
    · have hb : entity.stop ≤ (b : ℤ) := by omega
      rw [List.takeWhile_cons_of_pos (by simpa using ha),
        List.takeWhile_cons_of_pos (by simpa using hb), List.length_cons, List.length_cons]
      omega
    · rw [List.takeWhile_cons_of_neg (by simpa using ha)]
      exact Nat.zero_le _

/-! ## The entities around a place -/

/-- The entities before a place, and those of which the first is the only one that may contain
it. -/
structure Around (left : TextWithEntities) (ch : ℕ) (before behind : List EntityInText) : Prop where
  entities : left.entities = before ++ behind
  length : before.length = endedBefore left ch
  ended : ∀ entity ∈ before, entity.stop ≤ ch
  current : ∀ entity ∈ behind.head?, (ch : ℤ) < entity.stop
  later : ∀ entity ∈ behind.tail, (ch : ℤ) < entity.offset ∧ (ch : ℤ) < entity.stop

theorem exists_around (h : Disjoint left.text left.entities) (ch : ℕ) :
    ∃ before behind, Around left ch before behind := by
  refine ⟨left.entities.takeWhile fun entity => entity.stop ≤ (ch : ℤ),
    left.entities.dropWhile fun entity => entity.stop ≤ (ch : ℤ),
    List.takeWhile_append_dropWhile.symm, rfl, ?_, ?_, ?_⟩
  · intro entity hentity
    simpa using List.mem_takeWhile_imp hentity
  · intro entity hentity
    have := List.head?_dropWhile_not (fun entity : EntityInText => decide (entity.stop ≤ (ch : ℤ)))
      left.entities
    rw [Option.mem_def.mp hentity] at this
    simpa using this
  · have hapart := h.apart.sublist (List.dropWhile_sublist
      (fun entity : EntityInText => decide (entity.stop ≤ (ch : ℤ))) (l := left.entities))
    have hhead := List.head?_dropWhile_not
      (fun entity : EntityInText => decide (entity.stop ≤ (ch : ℤ))) left.entities
    have hinside : ∀ entity ∈ left.entities.dropWhile fun entity => decide (entity.stop ≤ (ch : ℤ)),
        0 ≤ entity.length := fun entity hentity =>
      (h.inside entity ((List.dropWhile_sublist _).subset hentity)).2.1
    intro entity hentity
    generalize (left.entities.dropWhile fun entity => decide (entity.stop ≤ (ch : ℤ))) = behind at *
    cases behind with
    | nil => cases hentity
    | cons first rest =>
      have hfirst : (ch : ℤ) < first.stop := by simpa using hhead
      have hle := (List.pairwise_cons.mp hapart).1 entity hentity
      have hlength := hinside entity (List.mem_cons_of_mem _ hentity)
      have hstop : entity.stop = entity.offset + entity.length := rfl
      exact ⟨by omega, by omega⟩


theorem Around.get {ch : ℕ} {before behind : List EntityInText} (h : Around left ch before behind) :
    left.entities[endedBefore left ch]? = behind.head? := by
  rw [h.entities, ← h.length, List.getElem?_append_right le_rfl, Nat.sub_self,
    List.head?_eq_getElem?]

theorem Around.take {ch : ℕ} {before behind : List EntityInText}
    (h : Around left ch before behind) : left.entities.take (endedBefore left ch) = before := by
  rw [h.entities, ← h.length, List.take_left]

theorem Around.drop {ch : ℕ} {before behind : List EntityInText}
    (h : Around left ch before behind) : left.entities.drop (endedBefore left ch) = behind := by
  rw [h.entities, ← h.length, List.drop_left]

/-- The entity that the loop is at is the one that contains the place. -/
theorem inUnbreakable_iff (h : Disjoint left.text left.entities) (ch : ℕ) :
    InUnbreakable left.entities ch ↔ isInEntity left ch (endedBefore left ch) = true ∧
      canBreakEntity left (endedBefore left ch) = false := by
  obtain ⟨before, behind, haround⟩ := exists_around h ch
  rw [isInEntity, canBreakEntity, haround.get]
  constructor
  · rintro ⟨entity, hentity, hstart, hstop, hnot⟩
    rw [haround.entities, List.mem_append] at hentity
    obtain hentity | hentity := hentity
    · have := haround.ended entity hentity
      omega
    · cases behind with
      | nil => cases hentity
      | cons first rest =>
        obtain rfl | hentity := List.mem_cons.mp hentity
        · simp only [List.head?_cons, Bool.and_eq_true, decide_eq_true_eq, Bool.or_eq_false_iff,
            decide_eq_false_iff_not]
          exact ⟨⟨hstart, hstop⟩, not_or.mp hnot⟩
        · have := (haround.later entity hentity).1
          omega
  · cases behind with
    | nil => simp
    | cons first rest =>
      simp only [List.head?_cons, Bool.and_eq_true, decide_eq_true_eq, Bool.or_eq_false_iff,
        decide_eq_false_iff_not]
      rintro ⟨⟨hstart, hstop⟩, hnot⟩
      exact ⟨first, by simp [haround.entities], hstart, hstop, not_or.mpr hnot⟩

/-! ## Fronts and backs -/

theorem filterMap_eq_self {α : Type} {f : α → Option α} {l : List α} (h : ∀ a ∈ l, f a = some a) :
    l.filterMap f = l := by
  induction l with
  | nil => rfl
  | cons a l ih =>
    rw [List.forall_mem_cons] at h
    rw [List.filterMap_cons_some h.1, ih h.2]

theorem filterMap_eq_map {α β : Type} {f : α → Option β} {g : α → β} {l : List α}
    (h : ∀ a ∈ l, f a = some (g a)) : l.filterMap f = l.map g := by
  induction l with
  | nil => rfl
  | cons a l ih =>
    rw [List.forall_mem_cons] at h
    rw [List.filterMap_cons_some h.1, ih h.2, List.map_cons]

theorem shiftLeft_eq {entity : EntityInText} {shift : ℤ} (h : shift ≤ entity.offset) :
    entity.shiftLeft shift = { entity with offset := entity.offset - shift } := by
  rw [EntityInText.shiftLeft, if_neg (by omega)]

/-- The entities in front of a cut. -/
theorem Around.frontOf {ch : ℕ} {before behind : List EntityInText}
    (h : Around left ch before behind) : left.entities.filterMap (frontOf ch) =
      before ++ (behind.head?.bind (Text.frontOf ch)).toList := by
  have hbefore : before.filterMap (Text.frontOf ch) = before :=
    filterMap_eq_self fun entity hentity => if_pos (h.ended entity hentity)
  rw [h.entities, List.filterMap_append, hbefore]
  cases behind with
  | nil => rfl
  | cons first rest =>
    have hrest : rest.filterMap (Text.frontOf ch) = [] := by
      rw [List.filterMap_eq_nil_iff]
      intro entity hentity
      obtain ⟨hoffset, hstop⟩ := h.later entity hentity
      rw [Text.frontOf, if_neg (by omega), if_neg (by omega)]
    rw [List.filterMap_cons, hrest, List.head?_cons, Option.bind_some]
    cases Text.frontOf ch first <;> rfl

/-- The entities behind a cut. -/
theorem Around.backOf {ch : ℕ} {before behind : List EntityInText}
    (h : Around left ch before behind) : left.entities.filterMap (backOf ch) =
      (behind.head?.bind (Text.backOf ch)).toList ++
        behind.tail.map fun entity => { entity with offset := entity.offset - ch } := by
  have hbefore : before.filterMap (Text.backOf ch) = [] := by
    rw [List.filterMap_eq_nil_iff]
    exact fun entity hentity => if_pos (h.ended entity hentity)
  rw [h.entities, List.filterMap_append, hbefore, List.nil_append]
  cases behind with
  | nil => rfl
  | cons first rest =>
    have hrest : rest.filterMap (Text.backOf ch) =
        rest.map fun entity => { entity with offset := entity.offset - ch } := by
      refine filterMap_eq_map fun entity hentity => ?_
      obtain ⟨hoffset, hstop⟩ := h.later entity hentity
      rw [Text.backOf, if_neg (by omega), if_pos (by omega)]
    rw [List.filterMap_cons, hrest, List.head?_cons, Option.bind_some, List.tail_cons]
    cases Text.backOf ch first <;> rfl

/-! ## The split -/

/-- What was marked at a place. -/
structure GoodAt (left : TextWithEntities) (good : Good) (ch : ℕ) : Prop where
  place : good.good = ch
  entity : good.goodEntity = endedBefore left ch
  inEntity : good.goodInEntity = isInEntity left ch (endedBefore left ch)
  canBreak : good.goodCanBreakEntity = canBreakEntity left (endedBefore left ch)

theorem splitAt_texts (left : TextWithEntities) (good : Good) :
    (splitAt left good).1.text = left.text.take good.good ∧
      (splitAt left good).2.text = left.text.drop good.good := by
  rw [splitAt]
  split_ifs <;> exact ⟨rfl, rfl⟩

theorem isInEntity_cons {ch : ℕ} {before rest : List EntityInText} {first : EntityInText}
    (h : Around left ch before (first :: rest)) :
    isInEntity left ch (endedBefore left ch) = decide (first.offset < ch) := by
  have hstop := h.current first rfl
  rw [isInEntity, h.get]
  simp only [List.head?_cons, decide_eq_true hstop, Bool.and_true]

theorem canBreakEntity_cons {ch : ℕ} {before rest : List EntityInText} {first : EntityInText}
    (h : Around left ch before (first :: rest)) :
    canBreakEntity left (endedBefore left ch) = decide (Breakable first) := by
  rw [canBreakEntity, h.get]
  rw [Bool.eq_iff_iff, decide_eq_true_eq, Breakable]
  simp

theorem map_shiftLeft {entities : List EntityInText} {ch : ℕ}
    (h : ∀ entity ∈ entities, (ch : ℤ) ≤ entity.offset) :
    (entities.map fun entity => entity.shiftLeft ch) =
      entities.map fun entity => { entity with offset := entity.offset - ch } :=
  List.map_congr_left fun entity hentity => shiftLeft_eq (h entity hentity)

/-- The split at a place that is not inside an entity that cannot be broken. -/
theorem splitAt_right (h : Disjoint left.text left.entities) {good : Good} {ch : ℕ}
    (hgood : GoodAt left good ch) (hnot : ¬ InUnbreakable left.entities ch) :
    splitAt left good = (frontPart ch left, backPart ch left) := by
  obtain ⟨before, behind, haround⟩ := exists_around h ch
  rw [inUnbreakable_iff h] at hnot
  rw [splitAt, hgood.place, hgood.entity, hgood.inEntity, hgood.canBreak, frontPart, backPart,
    haround.frontOf, haround.backOf]
  cases behind with
  | nil =>
    have hin : isInEntity left ch (endedBefore left ch) = false := by
      rw [isInEntity, haround.get]
      rfl
    rw [hin, if_neg Bool.false_ne_true, haround.take, haround.drop]
    simp
  | cons first rest =>
    have hstop := haround.current first rfl
    have hrest : ∀ entity ∈ rest, (ch : ℤ) ≤ entity.offset := fun entity hentity =>
      (haround.later entity hentity).1.le
    rw [isInEntity_cons haround, canBreakEntity_cons haround] at hnot
    rw [isInEntity_cons haround, canBreakEntity_cons haround, List.head?_cons, Option.bind_some,
      Option.bind_some, List.tail_cons, haround.take, haround.drop, List.map_cons,
      map_shiftLeft hrest]
    by_cases hoffset : first.offset < ch
    · have hbreak : Breakable first := by
        by_contra hno
        exact hnot ⟨decide_eq_true hoffset, decide_eq_false hno⟩
      have hfront : frontOf ch first = some { first with length := ch - first.offset } := by
        rw [frontOf, if_neg (by omega), if_pos ⟨hoffset, hbreak⟩]
      have hback : backOf ch first =
          some { first with offset := 0, length := first.stop - ch } := by
        rw [backOf, if_neg (by omega), if_neg (by omega), if_pos hbreak]
      have htake : left.entities.take (endedBefore left ch + 1) = before ++ [first] := by
        rw [haround.entities, ← haround.length, List.take_length_add_append, List.take_succ_cons,
          List.take_zero]
      have hupdate : first.updateTextEnd ch = { first with length := ch - first.offset } := by
        rw [EntityInText.updateTextEnd, if_neg (by omega), if_pos hstop]
      have hshift : first.shiftLeft ch = { first with offset := 0, length := first.stop - ch } := by
        have hlength : first.stop = first.offset + first.length := rfl
        rw [EntityInText.shiftLeft, if_pos (by omega), max_eq_right (by omega)]
        congr 1
        omega
      rw [if_pos (decide_eq_true hoffset), if_pos (decide_eq_true hbreak), htake, updateLastEnd,
        List.dropLast_concat, List.getLast?_concat, hfront, hback, hshift, Option.map_some,
        hupdate]
      rfl
    · have hfront : frontOf ch first = none := by
        rw [frontOf, if_neg (by omega), if_neg fun hand => hoffset hand.1]
      have hback : backOf ch first = some { first with offset := first.offset - ch } := by
        rw [backOf, if_neg (by omega), if_pos (by omega)]
      rw [if_neg (by simpa using hoffset), hfront, hback, shiftLeft_eq (by omega),
        Option.toList_none, List.append_nil]
      rfl

/-- At a place inside an entity that cannot be broken the later entities stay where they
are. -/
theorem splitAt_inside (h : Disjoint left.text left.entities) {good : Good} {ch : ℕ} (hch : 0 < ch)
    (hgood : GoodAt left good ch) (hin : InUnbreakable left.entities ch) :
    (splitAt left good).1 = frontPart ch left ∧
      ((splitAt left good).2 = backPart ch left ↔ ∀ entity ∈ left.entities, entity.offset < ch) := by
  obtain ⟨before, behind, haround⟩ := exists_around h ch
  rw [inUnbreakable_iff h] at hin
  rw [splitAt, hgood.place, hgood.entity, hgood.inEntity, hgood.canBreak, hin.1, hin.2,
    if_pos rfl, if_neg Bool.false_ne_true, frontPart, backPart, haround.frontOf, haround.backOf,
    haround.take]
  cases behind with
  | nil =>
    rw [isInEntity, haround.get] at hin
    exact absurd hin.1 Bool.false_ne_true
  | cons first rest =>
    have hstop := haround.current first rfl
    rw [isInEntity_cons haround, canBreakEntity_cons haround] at hin
    have hoffset := of_decide_eq_true hin.1
    have hbreak := of_decide_eq_false hin.2
    have hdrop : left.entities.drop (endedBefore left ch + 1) = rest := by
      rw [← List.drop_drop, haround.drop]
      rfl
    have hfront : frontOf ch first = none := by
      rw [frontOf, if_neg (by omega), if_neg fun hand => hbreak hand.2]
    have hback : backOf ch first = none := by
      rw [backOf, if_neg (by omega), if_neg (by omega), if_neg hbreak]
    rw [List.head?_cons, Option.bind_some, Option.bind_some, List.tail_cons, hfront, hback, hdrop,
      Option.toList_none, List.append_nil, List.nil_append]
    refine ⟨rfl, ?_⟩
    rw [haround.entities]
    have hall : (∀ entity ∈ before ++ first :: rest, entity.offset < ch) ↔ rest = [] := by
      constructor
      · intro hlt
        refine List.eq_nil_iff_forall_not_mem.mpr fun entity hentity => ?_
        have := hlt entity (by simp [hentity])
        have := (haround.later entity hentity).1
        omega
      · rintro rfl entity hentity
        rw [List.mem_append, List.mem_singleton] at hentity
        obtain hentity | rfl := hentity
        · have hended := haround.ended entity hentity
          have hlength := (h.inside entity (by simp [haround.entities, hentity])).2.1
          have hstop' : entity.stop = entity.offset + entity.length := rfl
          have hapart := h.apart
          rw [haround.entities, List.pairwise_append] at hapart
          have := hapart.2.2 entity hentity first List.mem_cons_self
          omega
        · exact hoffset
    rw [hall, TextWithEntities.mk.injEq, and_iff_right rfl]
    cases rest with
    | nil => simp
    | cons next rest =>
      -- the offset has changed by the length of what was cut off
      refine iff_of_false (fun heq => ?_) (List.cons_ne_nil _ _)
      rw [List.map_cons, List.cons.injEq, EntityInText.ext_iff] at heq
      have := heq.1.2.1
      simp only at this
      omega

end Bettergram.Ui.Text
