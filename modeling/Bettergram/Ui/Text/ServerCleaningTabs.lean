import Bettergram.Ui.Text.ServerCleaning

/-! # Tabs

The parts between the tabs move to the right, the last one first. The ends of an
entity come to their places, but for a start on a tab and an end behind one, which
stay.
-/

namespace Bettergram.Ui.Text

variable {text : QString}

/-! ## Entities -/

/-- An entity when the parts from `movedTill` on have moved. -/
structure PlacedRight (text : QString) (movedTill : ℕ) (before e : EntityInText) : Prop where
  type : e.type = before.type
  data : e.data = before.data
  nonneg : 0 ≤ before.offset ∧ 0 ≤ before.length
  empty : before.length = 0 → e.length = 0 ∧
    (before.offset < movedTill → e.offset = before.offset) ∧ before.offset ≤ e.offset ∧
    e.offset ≤ before.offset + badBefore tab text before.offset
  full : before.offset < before.stop →
    e.offset = (if movedTill ≤ before.offset then startPlace tab 1 text before.offset
      else before.offset) ∧
    e.stop = if movedTill < before.stop then stopPlace tab 1 text before.stop else before.stop

theorem le_startPlace (text : QString) (place : ℤ) : place ≤ startPlace tab 1 text place := by
  have := badBefore_nonneg tab text place
  rw [startPlace]
  split_ifs <;> omega

theorem le_stopPlace (text : QString) (place : ℤ) : place ≤ stopPlace tab 1 text place := by
  have := badBefore_nonneg tab text place
  rw [stopPlace]
  split_ifs <;> omega

/-- The part between the tab at `i` and `movedTill` moves. -/
theorem PlacedRight.moved {i movedTill : ℕ} {before e : EntityInText}
    (h : PlacedRight text movedTill before e) (hi : i < movedTill) (htab : text[i]? = some tab)
    (hnone : ∀ j, i + 1 ≤ j → j < movedTill → text[j]? ≠ some tab) {target : ℕ}
    (htarget : (target : ℤ) = i + 1 + badBefore tab text movedTill) :
    PlacedRight text i before (movedEntity target (i + 1) (movedTill - (i + 1)) e) := by
  obtain ⟨hsameType, hsameData⟩ := movedEntity_same target (i + 1) (movedTill - (i + 1)) e
  have hcount {place : ℤ} (h1 : (i + 1 : ℕ) ≤ place) (h2 : place ≤ movedTill) :
      badBefore tab text place = badBefore tab text movedTill := by
    rw [badBefore_eq hnone _ h1 h2, badBefore_eq hnone _ (by omega) le_rfl]
  have hadd : ((i + 1 : ℕ) : ℤ) + (movedTill - (i + 1) : ℕ) = movedTill := by omega
  obtain ⟨hoffset, -⟩ := h.nonneg
  refine ⟨hsameType.trans h.type, hsameData.trans h.data, h.nonneg, fun hempty => ?_,
    fun hfull => ?_⟩
  · obtain ⟨hzero, hfront, hle, hlast⟩ := h.empty hempty
    obtain ⟨hstill, hmoved⟩ := movedEntity_empty target (i + 1) (movedTill - (i + 1)) hzero
    rw [hadd] at hmoved
    refine ⟨hstill, ?_, ?_, ?_⟩
    · intro hlt
      rw [hmoved, if_neg (by have := hfront (by omega); omega)]
      exact hfront (by omega)
    · have := badBefore_nonneg tab text movedTill
      rw [hmoved]
      split_ifs <;> omega
    · rw [hmoved]
      split_ifs with hin
      · have hsame : e.offset = before.offset := hfront (by omega)
        rw [hcount (by omega) (by omega)]
        omega
      · exact hlast
  · obtain ⟨hstart, hstop⟩ := h.full hfull
    have hstartLe := le_startPlace text before.offset
    have hstopLe := le_stopPlace text before.stop
    obtain ⟨hends, hendsStop⟩ := movedEntity_ends target (i + 1) (movedTill - (i + 1)) (e := e)
      hfull
      (by rw [hadd, hstart]; split_ifs <;> omega) (by rw [hstop]; split_ifs <;> omega)
      (by rw [hstart]; split_ifs <;> omega) (by rw [hadd, hstop]; split_ifs <;> omega)
    rw [hadd] at hends hendsStop
    constructor
    · rw [hends, hstart]
      by_cases hin : ((i + 1 : ℕ) : ℤ) ≤ before.offset ∧ before.offset < movedTill
      · rw [if_pos hin, if_neg (by omega), if_pos (by omega), startPlace,
          if_neg (hnone _ (by omega) (by omega)), hcount hin.1 hin.2.le]
        omega
      rw [if_neg hin]
      by_cases hat : before.offset = i
      · have : text[before.offset.toNat]? = some tab := by rwa [hat, Int.toNat_natCast]
        rw [if_neg (by omega), if_pos (by omega), startPlace, if_pos this]
      · split_ifs <;> omega
    · rw [hendsStop, hstop]
      by_cases hin : ((i + 1 : ℕ) : ℤ) < before.stop ∧ before.stop ≤ movedTill
      · rw [if_pos hin, if_neg (by omega), if_pos (by omega), stopPlace,
          if_neg (hnone _ (by omega) (by omega)), hcount hin.1.le hin.2]
        omega
      rw [if_neg hin]
      by_cases hat : before.stop = i + 1
      · have : text[(before.stop - 1).toNat]? = some tab := by
          rwa [hat, add_sub_cancel_right, Int.toNat_natCast]
        rw [if_neg (by omega), if_pos (by omega), stopPlace, if_pos this]
      · split_ifs <;> omega


theorem placedRight_moveEntities {i movedTill : ℕ} {original current : List EntityInText}
    (hapart : original.Pairwise fun a b => a.stop ≤ b.offset)
    (h : List.Forall₂ (PlacedRight text movedTill) original current) (hi : i < movedTill)
    (htab : text[i]? = some tab)
    (hnone : ∀ j, i + 1 ≤ j → j < movedTill → text[j]? ≠ some tab) {target : ℕ}
    (htarget : (target : ℤ) = i + 1 + badBefore tab text movedTill) :
    List.Forall₂ (PlacedRight text i) original
      (moveEntities target (i + 1) (movedTill - (i + 1)) current) := by
  refine moveEntities_forall₂ (fun before e he => he.moved hi htab hnone htarget) ?_ hapart h
  intro before e he hbreak before' e' hlater he'
  have hadd : ((i + 1 : ℕ) : ℤ) + (movedTill - (i + 1) : ℕ) = movedTill := by omega
  rw [hadd] at hbreak
  -- the entity at which the loop stops starts behind the part, and so do the later ones
  have hbehind : movedTill ≤ before.offset := by
    by_contra hlt
    obtain hzero | hpos := he.nonneg.2.eq_or_lt
    · have := (he.empty hzero.symm).2.1 (by omega)
      omega
    · have := (he.full (by rw [EntityInText.stop]; omega)).1
      rw [if_neg hlt] at this
      omega
  have hlater' : movedTill ≤ before'.offset := by
    have := he.nonneg.2
    rw [EntityInText.stop] at hlater
    omega
  refine ⟨he'.type, he'.data, he'.nonneg, fun hempty => ?_, fun hfull => ?_⟩
  · obtain ⟨hzero, -, hle, hlast⟩ := he'.empty hempty
    exact ⟨hzero, by omega, hle, hlast⟩
  · obtain ⟨hstart, hstop⟩ := he'.full hfull
    rw [if_pos hlater'] at hstart
    rw [if_pos (by omega)] at hstop
    rw [if_pos (by omega), if_pos (by omega)]
    exact ⟨hstart, hstop⟩

/-! ## Text -/

def expandTab (ch : QChar) : QString := if ch = tab then [space, space] else [ch]

/-- The text when its last part has moved: the characters before `i` are still to be looked
at, those up to `movedTill` are no tabs. -/
structure TabsMoved (text : QString) (original : List EntityInText) (i movedTill target : ℕ)
    (result : TextWithEntities) : Prop where
  le : i ≤ movedTill
  inside : movedTill ≤ text.length
  noTab : ∀ j, i ≤ j → j < movedTill → text[j]? ≠ some tab
  shifted : target = movedTill + (text.take movedTill).count tab
  length : result.text.length = text.length + text.count tab
  front : result.text.take movedTill = text.take movedTill
  back : result.text.drop target = (text.drop movedTill).flatMap expandTab
  entities : List.Forall₂ (PlacedRight text movedTill) original result.entities

theorem flatMap_expandTab_eq {piece : QString} (h : tab ∉ piece) :
    piece.flatMap expandTab = piece := by
  induction piece with
  | nil => rfl
  | cons ch piece ih =>
    rw [List.mem_cons, not_or] at h
    rw [List.flatMap_cons, ih h.2, expandTab, if_neg (Ne.symm h.1)]
    rfl

/-- A tab and the part behind it. -/
theorem TabsMoved.atTab {original : List EntityInText}
    (hapart : original.Pairwise fun a b => a.stop ≤ b.offset) {i movedTill target : ℕ}
    {result : TextWithEntities} (h : TabsMoved text original (i + 1) movedTill target result)
    (htab : text[i]? = some tab) :
    TabsMoved text original i i (target - (movedTill - (i + 1)) - 2)
      { MoveStringPart result (target - (movedTill - (i + 1))) (i + 1) (movedTill - (i + 1)) with
        text := memcpy (MoveStringPart result (target - (movedTill - (i + 1))) (i + 1)
          (movedTill - (i + 1))).text (target - (movedTill - (i + 1)) - 2) [space, space] } := by
  have hle := h.le
  have hinside := h.inside
  have hshifted := h.shifted
  have hlength := h.length
  have hcount : (text.take movedTill).count tab = (text.take i).count tab + 1 := by
    have heq := badBefore_eq h.noTab movedTill (by omega) le_rfl
    have hsucc := badBefore_succ htab
    simp only [badBefore, Int.toNat_natCast] at heq hsucc
    omega
  have htotal : (text.take movedTill).count tab ≤ text.count tab :=
    (List.take_sublist _ _).count_le tab
  have hto : target - (movedTill - (i + 1)) = i + 2 + (text.take i).count tab := by omega
  have hpart : (result.text.drop (i + 1)).take (movedTill - (i + 1)) =
      (text.drop (i + 1)).take (movedTill - (i + 1)) := by
    rw [← List.drop_take, h.front, List.drop_take]
  have hnotTab : tab ∉ (text.drop (i + 1)).take (movedTill - (i + 1)) := by
    intro hmem
    obtain ⟨j, hj, hget⟩ := List.mem_iff_getElem.mp hmem
    rw [List.length_take, List.length_drop] at hj
    rw [List.getElem_take, List.getElem_drop] at hget
    refine h.noTab (i + 1 + j) (by omega) (by omega) ?_
    rw [List.getElem?_eq_getElem (by omega), hget]
  rw [moveStringPart_eq, hto]
  refine ⟨le_rfl, by omega, fun j hj hlt => by omega, by omega, ?_, ?_, ?_, ?_⟩
  · rw [memcpy_length, memmove_length, hlength]
    · omega
    · omega
    · simp only
      rw [memmove_length, List.length_cons, List.length_singleton] <;> omega
  · simp only
    rw [memcpy_take _ _ (by omega) (by rw [memmove_length] <;> omega),
      memmove_take _ _ _ (by omega) (by omega), ← Nat.min_eq_left (by omega : i ≤ movedTill),
      ← List.take_take, h.front, List.take_take]
  · have hsplit : text.drop i = tab :: ((text.drop (i + 1)).take (movedTill - (i + 1)) ++
        text.drop movedTill) := by
      have hget : text[i] = tab := by
        rw [List.getElem?_eq_getElem (by omega)] at htab
        exact Option.some.inj htab
      have hdrop : text.drop movedTill = (text.drop (i + 1)).drop (movedTill - (i + 1)) := by
        rw [List.drop_drop]
        congr 1
        omega
      rw [hdrop, List.take_append_drop, List.drop_eq_getElem_cons (by omega), hget]
    have htwo : i + 2 + (text.take i).count tab - 2 + [space, space].length =
        i + 2 + (text.take i).count tab := by
      simp only [List.length_cons, List.length_nil]
      omega
    simp only
    rw [memcpy_drop _ _ (by rw [memmove_length] <;> omega), htwo, memmove_drop _ _ _ (by omega),
      hpart, hsplit, List.flatMap_cons, List.flatMap_append, flatMap_expandTab_eq hnotTab,
      ← h.back, expandTab, if_pos rfl]
    congr 3
    omega
  · refine placedRight_moveEntities hapart h.entities (by omega) htab h.noTab ?_
    simp only [badBefore, Int.toNat_natCast]
    omega

/-- Without a tab in the first part its entities are where they should be. -/
theorem PlacedRight.toZero {movedTill : ℕ} {before e : EntityInText}
    (h : PlacedRight text movedTill before e) (hnotTab : tab ∉ text.take movedTill) :
    PlacedRight text 0 before e := by
  obtain ⟨hoffset, hlength⟩ := h.nonneg
  have hzero {place : ℤ} (hle : place ≤ movedTill) : badBefore tab text place = 0 := by
    have hlast : badBefore tab text movedTill = 0 := by
      rwa [badBefore_eq_zero, Int.toNat_natCast]
    have := badBefore_mono tab text hle
    have := badBefore_nonneg tab text place
    omega
  refine ⟨h.type, h.data, h.nonneg, fun hempty => ?_, fun hfull => ?_⟩
  · obtain ⟨hstill, -, hle, hlast⟩ := h.empty hempty
    exact ⟨hstill, by omega, hle, hlast⟩
  · obtain ⟨hstart, hstop⟩ := h.full hfull
    rw [if_pos (by omega), if_pos (by omega), hstart, hstop]
    constructor
    · split_ifs
      · rfl
      · rw [startPlace, hzero (by omega), mul_zero, add_zero, ite_self]
    · split_ifs
      · rfl
      · rw [stopPlace, hzero (by omega), mul_zero, add_zero, ite_self]

theorem replaceTabs_moved {original : List EntityInText}
    (hapart : original.Pairwise fun a b => a.stop ≤ b.offset) {i movedTill target : ℕ}
    {result : TextWithEntities} (h : TabsMoved text original i movedTill target result) :
    (replaceTabs i movedTill target result).text = text.flatMap expandTab ∧
      List.Forall₂ (PlacedRight text 0) original
        (replaceTabs i movedTill target result).entities := by
  induction i generalizing movedTill target result with
  | zero =>
    have hnotTab : tab ∉ text.take movedTill := by
      intro hmem
      obtain ⟨j, hj, hget⟩ := List.mem_iff_getElem.mp hmem
      rw [List.length_take] at hj
      rw [List.getElem_take] at hget
      refine h.noTab j (Nat.zero_le _) (by omega) ?_
      rw [List.getElem?_eq_getElem (by omega), hget]
    have htarget : target = movedTill := by
      rw [h.shifted, List.count_eq_zero.mpr hnotTab, Nat.add_zero]
    constructor
    · rw [replaceTabs, ← List.take_append_drop movedTill result.text, h.front, ← htarget, h.back,
        htarget]
      conv_rhs => rw [← List.take_append_drop movedTill text]
      rw [List.flatMap_append, flatMap_expandTab_eq hnotTab]
    · rw [replaceTabs]
      exact h.entities.imp fun before e he => he.toZero hnotTab
  | succ i ih =>
    have hle := h.le
    have hinside := h.inside
    have hget : result.text.getD i 0 = tab ↔ text[i]? = some tab := by
      have hsame : result.text[i]? = text[i]? := by
        rw [← List.getElem?_take_of_lt (by omega : i < movedTill), h.front,
          List.getElem?_take_of_lt (by omega)]
      rw [List.getD_eq_getElem?_getD, hsame, List.getElem?_eq_getElem (by omega), Option.getD_some,
        Option.some.injEq]
    rw [replaceTabs]
    by_cases htab : text[i]? = some tab
    · rw [if_pos (hget.mpr htab)]
      exact ih (h.atTab hapart htab)
    · rw [if_neg (mt hget.mp htab)]
      refine ih ⟨by omega, h.inside, fun j hj hlt => ?_, h.shifted, h.length, h.front, h.back,
        h.entities⟩
      obtain heq | hlt' := hj.eq_or_lt
      · rwa [← heq]
      · exact h.noTab j hlt' hlt


/-- Entities before any move. -/
theorem placedRight_refl {entities : List EntityInText} (h : Disjoint text entities) :
    List.Forall₂ (PlacedRight text text.length) entities entities := by
  rw [List.forall₂_same]
  intro e he
  obtain ⟨hoffset, hlength, hstop⟩ := h.inside e he
  have := badBefore_nonneg tab text e.offset
  refine ⟨rfl, rfl, ⟨hoffset, hlength⟩, fun hempty => ⟨hempty, fun _ => rfl, le_rfl, by omega⟩,
    fun hfull => ?_⟩
  rw [if_neg (by omega), if_neg (by omega)]
  exact ⟨rfl, rfl⟩

/-- What the loop over the tabs comes to. -/
theorem replaceAllTabs_placed {result : TextWithEntities}
    (h : Disjoint result.text result.entities) :
    (replaceAllTabs result).text = result.text.flatMap expandTab ∧
      List.Forall₂ (PlacedRight result.text 0) result.entities
        (replaceAllTabs result).entities := by
  rw [replaceAllTabs]
  by_cases htabs : result.text.count tab ≠ 0
  · rw [if_pos htabs]
    refine replaceTabs_moved h.apart ⟨le_rfl, le_rfl, fun j hj hlt => by omega,
      by rw [List.take_length], ?_, ?_, ?_, placedRight_refl h⟩
    · rw [List.length_append, List.length_replicate]
    · rw [List.take_left, List.take_length]
    · rw [List.drop_length, List.drop_eq_nil_of_le]
      · rfl
      · rw [List.length_append, List.length_replicate]
  · rw [if_neg htabs]
    rw [not_not, List.count_eq_zero] at htabs
    refine ⟨(flatMap_expandTab_eq htabs).symm, (placedRight_refl h).imp fun before e he => ?_⟩
    exact he.toZero (by rwa [List.take_length])

end Bettergram.Ui.Text
