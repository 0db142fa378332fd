import Bettergram.Ui.Text.ServerCleaningTabs
import Bettergram.Ui.Text.ServerCleaningReturns

/-! # What the cleaning comes to

The text is cleaned whatever it is. The entities are taken along when none of them
begins or ends where a character is replaced.
-/

namespace Bettergram.Ui.Text

variable {text : QString}

/-! ## Text -/

theorem cleaned_eq (ch : QChar) : cleaned ch = (expandTab ch).flatMap dropReturn := by
  rw [cleaned, expandTab]
  split_ifs with htab hreturn hbad
  · decide
  · rw [List.flatMap_singleton, dropReturn, if_pos hreturn]
  · rw [List.flatMap_singleton, dropReturn, if_neg hreturn, fixed, if_pos hbad]
  · rw [List.flatMap_singleton, dropReturn, if_neg hreturn, fixed, if_neg hbad]

theorem flatMap_cleaned (text : QString) :
    text.flatMap cleaned = (text.flatMap expandTab).flatMap dropReturn := by
  rw [List.flatMap_assoc]
  congr 1
  funext ch
  exact cleaned_eq ch

/-- What the second loop with its last part comes to. -/
theorem applyServerCleaning_spec (result : TextWithEntities) :
    (ApplyServerCleaning result).text = (replaceAllTabs result).text.flatMap dropReturn ∧
      (Orderly (replaceAllTabs result).entities →
        List.Forall₂ (PlacedLeft (replaceAllTabs result).text (replaceAllTabs result).text.length)
          (replaceAllTabs result).entities (ApplyServerCleaning result).entities) ∧
      (carriageReturn ∉ (replaceAllTabs result).text →
        (ApplyServerCleaning result).entities = (replaceAllTabs result).entities) := by
  rw [ApplyServerCleaning]
  simp only
  generalize replaceAllTabs result = result
  have hstart : ReturnsMoved result.text result.entities 0 ⟨result, 0, 0⟩ := by
    refine ⟨le_rfl, Nat.zero_le _, fun j hj hlt => by omega, rfl, rfl, rfl, rfl, rfl,
      fun horderly => ?_, fun _ => rfl⟩
    rw [List.forall₂_same]
    intro e he
    obtain ⟨hoffset, hlength⟩ := horderly.nonneg e he
    refine ⟨rfl, rfl, ⟨hoffset, hlength⟩, fun hempty => ⟨hempty, fun _ => rfl, le_rfl⟩,
      fun hfull => ?_⟩
    rw [if_neg (by simp only; omega), if_neg (by simp only; omega)]
    exact ⟨rfl, rfl⟩
  obtain ⟨hmoved, hsource⟩ :=
    (replaceBad_moved hstart (Nat.zero_add result.text.length)).movePart
  generalize MovePartAndGoForward _ (result.text.length - _) = s at hmoved hsource ⊢
  have hentities := hmoved.entities
  have hshifted := hmoved.shifted
  have hfront := hmoved.front
  rw [hsource, List.take_length] at hfront hshifted
  rw [hsource] at hentities
  split_ifs with hlt
  · exact ⟨hfront, hentities, hmoved.still⟩
  · refine ⟨?_, hentities, hmoved.still⟩
    rw [← hfront, List.take_of_length_le]
    rw [hmoved.length]
    omega

/-! ## Places -/

theorem length_expandTab (text : QString) :
    (text.flatMap expandTab).length = text.length + text.count tab := by
  induction text with
  | nil => rfl
  | cons ch text ih =>
    rw [List.flatMap_cons, List.length_append, ih, List.length_cons, expandTab]
    by_cases h : ch = tab
    · rw [if_pos h, h, List.count_cons_self, List.length_cons, List.length_singleton]
      omega
    · rw [if_neg h, List.count_cons_of_ne h, List.length_singleton]
      omega

theorem length_dropReturn (text : QString) :
    (text.flatMap dropReturn).length + text.count carriageReturn = text.length := by
  induction text with
  | nil => rfl
  | cons ch text ih =>
    rw [List.flatMap_cons, List.length_append, List.length_cons, dropReturn]
    by_cases h : ch = carriageReturn
    · rw [if_pos h, h, List.count_cons_self, List.length_nil]
      omega
    · rw [if_neg h, List.count_cons_of_ne h, List.length_singleton]
      omega

theorem count_expandTab (text : QString) :
    (text.flatMap expandTab).count carriageReturn = text.count carriageReturn := by
  induction text with
  | nil => rfl
  | cons ch text ih =>
    rw [List.flatMap_cons, List.count_append, ih, List.count_cons, expandTab]
    by_cases h : ch = tab
    · rw [if_pos h, h]
      rw [show [space, space].count carriageReturn = 0 from rfl,
        show (tab == carriageReturn) = false from rfl]
      simp
    · rw [if_neg h, List.count_singleton, Nat.add_comm]

/-- The text before a place, with its tabs replaced. -/
theorem take_expandTab {place : ℕ} (h : place ≤ text.length) :
    (text.flatMap expandTab).take (place + (text.take place).count tab) =
      (text.take place).flatMap expandTab := by
  have hlength := length_expandTab (text.take place)
  rw [List.length_take_of_le h] at hlength
  have hsplit : text.flatMap expandTab =
      (text.take place).flatMap expandTab ++ (text.drop place).flatMap expandTab := by
    rw [← List.flatMap_append, List.take_append_drop]
  rw [hsplit, ← hlength, List.take_left]

theorem drop_expandTab {place : ℕ} (h : place ≤ text.length) :
    (text.flatMap expandTab).drop (place + (text.take place).count tab) =
      (text.drop place).flatMap expandTab := by
  have hlength := length_expandTab (text.take place)
  rw [List.length_take_of_le h] at hlength
  have hsplit : text.flatMap expandTab =
      (text.take place).flatMap expandTab ++ (text.drop place).flatMap expandTab := by
    rw [← List.flatMap_append, List.take_append_drop]
  rw [hsplit, ← hlength, List.drop_left]

/-- The characters of the image with the tabs replaced. -/
theorem getElem?_expandTab {place : ℕ} (h : place < text.length) :
    (text.flatMap expandTab)[place + (text.take place).count tab]? =
        some (if text[place] = tab then space else text[place]) ∧
      (text[place] = tab →
        (text.flatMap expandTab)[place + (text.take place).count tab + 1]? = some space) := by
  have hdrop := drop_expandTab h.le
  rw [List.drop_eq_getElem_cons h, List.flatMap_cons] at hdrop
  have hget (k : ℕ) : (text.flatMap expandTab)[place + (text.take place).count tab + k]? =
      (expandTab text[place] ++ (text.drop (place + 1)).flatMap expandTab)[k]? := by
    rw [← List.getElem?_drop, hdrop]
  have hzero := hget 0
  rw [Nat.add_zero] at hzero
  rw [hzero, hget 1, expandTab]
  split_ifs with htab
  · exact ⟨rfl, fun _ => rfl⟩
  · exact ⟨rfl, fun hno => absurd hno htab⟩

/-- The image of a text in length. -/
theorem imageStart_eq {place : ℕ} (h : place ≤ text.length) :
    (imageStart text place : ℤ) =
      place + badBefore tab text place - badBefore carriageReturn text place := by
  have h1 := length_dropReturn ((text.take place).flatMap expandTab)
  have h2 := length_expandTab (text.take place)
  rw [List.length_take_of_le h] at h2
  rw [count_expandTab] at h1
  rw [imageStart, flatMap_cleaned, badBefore, badBefore, Int.toNat_natCast]
  omega

theorem imageStart_mono (text : QString) : Monotone (imageStart text) := by
  intro a b hab
  rw [imageStart, imageStart, ← Nat.add_sub_cancel' hab, List.take_add, List.flatMap_append,
    List.length_append]
  omega

/-- The images of the characters between two places lie side by side. -/
theorem exists_image_iff {start : ℕ → ℕ} (hstart : Monotone start) {a b : ℕ} (hab : a ≤ b)
    (i : ℤ) :
    (∃ place : ℕ, a ≤ place ∧ place < b ∧ start place ≤ i ∧ i < start (place + 1)) ↔
      start a ≤ i ∧ i < start b := by
  constructor
  · rintro ⟨place, ha, hb, h1, h2⟩
    have := hstart ha
    have := hstart (show place + 1 ≤ b from hb)
    omega
  · rintro ⟨h1, h2⟩
    induction b, hab using Nat.le_induction with
    | base => omega
    | succ b hab ih =>
      by_cases h : i < start b
      · obtain ⟨place, ha, hb, hplace⟩ := ih h
        exact ⟨place, ha, by omega, hplace⟩
      · exact ⟨b, hab, by omega, by omega, h2⟩


/-! ## Entities -/

theorem exists_of_forall₂ {α β : Type} {R : α → β → Prop} {l : List α} {l' : List β}
    (h : List.Forall₂ R l l') {b : β} (hb : b ∈ l') : ∃ a ∈ l, R a b := by
  induction h with
  | nil => cases hb
  | cons hhead _ ih =>
    obtain rfl | hb := List.mem_cons.mp hb
    · exact ⟨_, List.mem_cons_self, hhead⟩
    · obtain ⟨a, ha, hab⟩ := ih hb
      exact ⟨a, List.mem_cons_of_mem _ ha, hab⟩

/-- A carriage return stands where it stood. -/
theorem startPlace_expandTab {place : ℕ} (h : place < text.length) :
    startPlace carriageReturn (-1) (text.flatMap expandTab) (place + badBefore tab text place) =
      if text[place] = carriageReturn then place + badBefore tab text place
      else (imageStart text place : ℤ) := by
  have hplace : ((place : ℤ) + badBefore tab text place).toNat =
      place + (text.take place).count tab := by
    rw [badBefore, Int.toNat_natCast]
    omega
  have hcount : badBefore carriageReturn (text.flatMap expandTab)
      (place + badBefore tab text place) = badBefore carriageReturn text place := by
    rw [badBefore, hplace, take_expandTab h.le, count_expandTab, badBefore, Int.toNat_natCast]
  have hreturn : (text.flatMap expandTab)[place + (text.take place).count tab]? =
      some carriageReturn ↔ text[place] = carriageReturn := by
    rw [(getElem?_expandTab h).1, Option.some.injEq]
    split_ifs with htab
    · rw [htab]
      decide
    · rfl
  rw [startPlace, hplace, hcount, imageStart_eq h.le]
  by_cases hr : text[place] = carriageReturn
  · rw [if_pos (hreturn.mpr hr), if_pos hr]
  · rw [if_neg (mt hreturn.mp hr), if_neg hr]
    omega

theorem stopPlace_expandTab {place : ℕ} (h : place < text.length) :
    stopPlace carriageReturn (-1) (text.flatMap expandTab)
        ((place + 1 : ℕ) + badBefore tab text (place + 1 : ℕ)) =
      if text[place] = carriageReturn then (place + 1 : ℕ) + badBefore tab text (place + 1 : ℕ)
      else (imageStart text (place + 1) : ℤ) := by
  have hcount : badBefore carriageReturn (text.flatMap expandTab)
      ((place + 1 : ℕ) + badBefore tab text (place + 1 : ℕ)) =
        badBefore carriageReturn text (place + 1 : ℕ) := by
    have hplace : (((place + 1 : ℕ) : ℤ) + badBefore tab text (place + 1 : ℕ)).toNat =
        place + 1 + (text.take (place + 1)).count tab := by
      rw [badBefore, Int.toNat_natCast]
      omega
    rw [badBefore, hplace, take_expandTab h, count_expandTab, badBefore, Int.toNat_natCast]
  have hreturn : (text.flatMap expandTab)[(((place + 1 : ℕ) : ℤ) +
      badBefore tab text (place + 1 : ℕ) - 1).toNat]? = some carriageReturn ↔
        text[place] = carriageReturn := by
    obtain ⟨hfirst, hsecond⟩ := getElem?_expandTab h
    have hlast : (text.take (place + 1)).count tab =
        (text.take place).count tab + if text[place] = tab then 1 else 0 := by
      rw [List.take_add_one, List.getElem?_eq_getElem h, List.count_append, Option.toList_some,
        List.count_singleton]
      simp
    by_cases htab : text[place] = tab
    · rw [if_pos htab] at hlast
      have hplace : (((place + 1 : ℕ) : ℤ) + badBefore tab text (place + 1 : ℕ) - 1).toNat =
          place + (text.take place).count tab + 1 := by
        rw [badBefore, Int.toNat_natCast]
        omega
      rw [hplace, hsecond htab, htab]
      decide
    · rw [if_neg htab] at hlast hfirst
      have hplace : (((place + 1 : ℕ) : ℤ) + badBefore tab text (place + 1 : ℕ) - 1).toNat =
          place + (text.take place).count tab := by
        rw [badBefore, Int.toNat_natCast]
        omega
      rw [hplace, hfirst, Option.some.injEq]
  rw [stopPlace, hcount, imageStart_eq (show place + 1 ≤ text.length from h)]
  by_cases hr : text[place] = carriageReturn
  · rw [if_pos (hreturn.mpr hr), if_pos hr]
  · rw [if_neg (mt hreturn.mp hr), if_neg hr]
    omega


/-- An entity without characters covers none. -/
theorem coversImage_empty {before after : EntityInText} (htype : after.type = before.type)
    (hdata : after.data = before.data) (hbefore : before.length = 0) (hafter : after.length = 0) :
    CoversImage text before after := by
  refine ⟨htype, hdata, fun i => iff_of_false ?_ ?_⟩
  · rw [EntityInText.stop, hafter]
    omega
  · rintro ⟨place, h1, h2, -⟩
    rw [EntityInText.stop, hbefore] at h2
    omega

/-- The images of an entity's characters lie side by side. -/
theorem covers_iff {before : EntityInText} (hoffset : 0 ≤ before.offset)
    (hle : before.offset ≤ before.stop) (i : ℤ) :
    (∃ position : ℕ, before.offset ≤ position ∧ position < before.stop ∧
      imageStart text position ≤ i ∧ i < imageStart text (position + 1)) ↔
      imageStart text before.offset.toNat ≤ i ∧ i < imageStart text before.stop.toNat := by
  rw [← exists_image_iff (imageStart_mono text)
    (by omega : before.offset.toNat ≤ before.stop.toNat)]
  refine exists_congr fun place => ?_
  have h1 : before.offset ≤ place ↔ before.offset.toNat ≤ place := by omega
  have h2 : (place : ℤ) < before.stop ↔ place < before.stop.toNat := by omega
  rw [h1, h2]

/-- The first loop takes an entity along that does not begin or end on tabs. -/
theorem PlacedRight.keeps {before e : EntityInText} (h : PlacedRight text 0 before e)
    (hpos : 0 < before.length)
    (htab : Keeps text tab before.offset.toNat before.stop.toNat) :
    e.offset = before.offset + badBefore tab text before.offset ∧
      e.stop = before.stop + badBefore tab text before.stop := by
  have hstop : before.stop = before.offset + before.length := rfl
  have hoffset := h.nonneg.1
  obtain ⟨hstart, hend⟩ := h.full (by omega)
  rw [if_pos (by omega)] at hstart hend
  rw [hstart, hend]
  constructor
  · rw [startPlace]
    split_ifs with hat
    · rw [badBefore_eq_zero.mpr (htab.start hat), add_zero]
    · rw [one_mul]
  · have hlast : (before.stop - 1).toNat = before.stop.toNat - 1 := by omega
    rw [stopPlace, hlast, if_neg htab.last, one_mul]

theorem placedRight_orderly {original current : List EntityInText}
    (hdisjoint : Disjoint text original)
    (hkeeps : ∀ e ∈ original, 0 < e.length → Keeps text tab e.offset.toNat e.stop.toNat)
    (h : List.Forall₂ (PlacedRight text 0) original current) : Orderly current := by
  have hboth : List.Forall₂ (fun before e => (0 < before.length →
      Keeps text tab before.offset.toNat before.stop.toNat) ∧ PlacedRight text 0 before e)
      original current := (List.forall₂_and_left _ _).mpr ⟨hkeeps, h⟩
  have hstart : ∀ before e, (0 < before.length →
      Keeps text tab before.offset.toNat before.stop.toNat) → PlacedRight text 0 before e →
      e.offset ≤ before.offset + badBefore tab text before.offset := by
    intro before e hkeep hplaced
    obtain hzero | hpos := hplaced.nonneg.2.eq_or_lt
    · exact (hplaced.empty hzero.symm).2.2.2
    · exact (hplaced.keeps hpos (hkeep hpos)).1.le
  clear hkeeps h
  have hapart := hdisjoint.apart
  clear hdisjoint
  induction hboth with
  | nil => exact ⟨List.Pairwise.nil, by simp⟩
  | @cons before e originals currents hhead htail ih =>
    obtain ⟨hfirst, hrest⟩ := List.pairwise_cons.mp hapart
    obtain ⟨hlater, hnonneg⟩ := ih hrest
    refine ⟨List.pairwise_cons.mpr ⟨?_, hlater⟩, List.forall_mem_cons.mpr ⟨?_, hnonneg⟩⟩
    · intro e' he'
      obtain ⟨before', hbefore', hkeep', hplaced'⟩ := exists_of_forall₂ htail he'
      obtain hzero | hpos := hplaced'.nonneg.2.eq_or_lt
      · exact .inr (hplaced'.empty hzero.symm).1
      · refine .inl ?_
        have hle := hfirst before' hbefore'
        have hlength := hhead.2.nonneg.2
        have hstop : before.stop = before.offset + before.length := rfl
        have hmono := badBefore_mono tab text (by omega : before.offset ≤ before'.offset)
        have := hstart before e hhead.1 hhead.2
        rw [(hplaced'.keeps hpos (hkeep' hpos)).1]
        omega
    · obtain ⟨hoffset, hlength⟩ := hhead.2.nonneg
      obtain hzero | hpos := hlength.eq_or_lt
      · obtain ⟨hempty, -, hle, -⟩ := hhead.2.empty hzero.symm
        exact ⟨by omega, hempty.ge⟩
      · obtain ⟨hstart', hstop'⟩ := hhead.2.keeps hpos (hhead.1 hpos)
        have hstop : before.stop = before.offset + before.length := rfl
        have hmono := badBefore_mono tab text (by omega : before.offset ≤ before.stop)
        have := badBefore_nonneg tab text before.offset
        rw [EntityInText.stop] at hstop'
        exact ⟨by omega, by omega⟩

/-- What the two loops make of an entity with characters whose text allows it. -/
theorem coversImage_of_keeps {before between after : EntityInText}
    (hinside : before.stop ≤ text.length) (hpos : 0 < before.length)
    (htab : Keeps text tab before.offset.toNat before.stop.toNat)
    (hreturn : Keeps text carriageReturn before.offset.toNat before.stop.toNat)
    (hright : PlacedRight text 0 before between)
    (hleft : PlacedLeft (text.flatMap expandTab) (text.flatMap expandTab).length between after) :
    CoversImage text before after := by
  have hoffset := hright.nonneg.1
  have hstop : before.stop = before.offset + before.length := rfl
  obtain ⟨hstart1, hstop1⟩ := hright.keeps hpos htab
  refine ⟨hleft.type.trans hright.type, hleft.data.trans hright.data, fun i => ?_⟩
  rw [covers_iff hoffset (by omega)]
  obtain ⟨a, ha⟩ : ∃ a : ℕ, before.offset = a := ⟨before.offset.toNat, by omega⟩
  obtain ⟨b, hb⟩ : ∃ b : ℕ, before.stop = (b + 1 : ℕ) := ⟨before.stop.toNat - 1, by omega⟩
  have hmono := badBefore_mono tab text (by omega : before.offset ≤ before.stop)
  have htotal : badBefore tab text before.stop ≤ text.count tab := by
    rw [badBefore, Int.ofNat_le]
    exact (List.take_sublist _ _).count_le tab
  obtain ⟨hstart2, hstop2⟩ := hleft.full (by omega)
  rw [length_expandTab, if_pos (by push_cast; omega)] at hstart2 hstop2
  have hlt : a < text.length := by omega
  have hfirst : after.offset = imageStart text a := by
    rw [hstart2, hstart1, ha, startPlace_expandTab hlt]
    split_ifs with hat
    · have hnone := hreturn.start (by rw [ha, Int.toNat_natCast, List.getElem?_eq_getElem hlt, hat])
      rw [← badBefore_eq_zero, ha] at hnone
      rw [imageStart_eq hlt.le, hnone, sub_zero]
    · rfl
  have hlast : after.stop = imageStart text (b + 1) := by
    have hltLast : b < text.length := by omega
    have hnot : text[b] ≠ carriageReturn := by
      intro hat
      refine hreturn.last ?_
      rw [hb, Int.toNat_natCast, Nat.add_sub_cancel, List.getElem?_eq_getElem (by omega), hat]
    rw [hstop2, hstop1, hb, stopPlace_expandTab (by omega), if_neg hnot]
  rw [hfirst, hlast, ha, hb, Int.toNat_natCast, Int.toNat_natCast]

theorem forall₂_trans {α β γ : Type} {R : α → β → Prop} {S : β → γ → Prop} {T : α → γ → Prop}
    (htrans : ∀ a b c, R a b → S b c → T a c) {l : List α} {l' : List β} {l'' : List γ}
    (h : List.Forall₂ R l l') (h' : List.Forall₂ S l' l'') : List.Forall₂ T l l'' := by
  induction h generalizing l'' with
  | nil =>
    cases h'
    exact List.Forall₂.nil
  | cons hhead _ ih =>
    cases h' with
    | cons hhead' htail' => exact List.Forall₂.cons (htrans _ _ _ hhead hhead') (ih htail')

/-- The cleaning of entities whose ends are not at replaced characters. -/
theorem cleaned_of_keeps {result : TextWithEntities} (h : Disjoint result.text result.entities)
    (hkeeps : KeepsEntities result) : Cleaned result (ApplyServerCleaning result) := by
  obtain ⟨htext, hplaced⟩ := replaceAllTabs_placed h
  obtain ⟨hcleaned, hmoved, -⟩ := applyServerCleaning_spec result
  have horderly := placedRight_orderly h (fun e he hpos => (hkeeps e he hpos).1) hplaced
  refine ⟨by rw [hcleaned, htext, flatMap_cleaned], ?_⟩
  have hboth : List.Forall₂ (fun before e => (before.stop ≤ (result.text.length : ℤ) ∧
      (0 < before.length → Keeps result.text tab before.offset.toNat before.stop.toNat ∧
        Keeps result.text carriageReturn before.offset.toNat before.stop.toNat)) ∧
      PlacedRight result.text 0 before e) result.entities (replaceAllTabs result).entities :=
    (List.forall₂_and_left _ _).mpr ⟨fun e he => ⟨(h.inside e he).2.2, hkeeps e he⟩, hplaced⟩
  have hleft := hmoved horderly
  rw [htext] at hleft
  refine forall₂_trans (fun before between after hbefore hafter => ?_) hboth hleft
  obtain ⟨⟨hinside, hkeep⟩, hright⟩ := hbefore
  obtain hzero | hpos := hright.nonneg.2.eq_or_lt
  · have hbetween := (hright.empty hzero.symm).1
    exact coversImage_empty (hafter.type.trans hright.type) (hafter.data.trans hright.data)
      hzero.symm (hafter.empty hbetween).1
  · exact coversImage_of_keeps hinside hpos (hkeep hpos).1 (hkeep hpos).2 hright hafter

/-- An entity that one of the loops has not taken along covers something else. -/
theorem keeps_of_covers {bad : QChar} {sign : ℤ} (hsign : sign = 1 ∨ sign = -1) {a b : ℕ}
    (hab : a ≤ b) {start stop : ℤ} (hstart : start = startPlace bad sign text a)
    (hstop : stop = stopPlace bad sign text (b + 1 : ℕ))
    (hcovers : ∀ i : ℤ, start ≤ i ∧ i < stop ↔ a + sign * badBefore bad text a ≤ i ∧
      i < (b + 1 : ℕ) + sign * badBefore bad text (b + 1 : ℕ)) : Keeps text bad a (b + 1) := by
  have hmono := badBefore_mono bad text (by omega : (a : ℤ) ≤ b)
  have hnonneg := badBefore_nonneg bad text a
  have hnext : badBefore bad text b ≤ badBefore bad text (b + 1 : ℕ) :=
    badBefore_mono bad text (by omega)
  have hlast : text[b + 1 - 1]? ≠ some bad := by
    rw [Nat.add_sub_cancel]
    intro hat
    have hsucc := badBefore_succ hat
    have hstopAt : stop = (b + 1 : ℕ) := by
      rw [hstop, stopPlace, if_pos]
      rw [Nat.cast_add_one, add_sub_cancel_right, Int.toNat_natCast, hat]
    have hstartLe : start ≤ a ∨ start = a + sign * badBefore bad text a := by
      rw [hstart, startPlace]
      split_ifs
      · exact .inl le_rfl
      · exact .inr rfl
    obtain rfl | rfl := hsign
    · have := (hcovers (b + 1 * badBefore bad text (b + 1 : ℕ))).mpr ⟨by omega, by omega⟩
      omega
    · have := (hcovers b).mp ⟨by omega, by omega⟩
      omega
  refine ⟨fun hat => ?_, hlast⟩
  rw [← Int.toNat_natCast a, ← badBefore_eq_zero]
  by_contra hne
  have hstartAt : start = a := by
    rw [hstart, startPlace, if_pos]
    rw [Int.toNat_natCast, hat]
  have hstopAt : stop = (b + 1 : ℕ) + sign * badBefore bad text (b + 1 : ℕ) := by
    rw [hstop, stopPlace, if_neg]
    rw [Nat.cast_add_one, add_sub_cancel_right, Int.toNat_natCast]
    rwa [Nat.add_sub_cancel] at hlast
  have hsame : badBefore bad text (b + 1 : ℕ) = badBefore bad text b := by
    refine badBefore_eq (fun j hj hlt => ?_) _ (by omega) le_rfl
    obtain rfl : j = b := by omega
    rwa [Nat.add_sub_cancel] at hlast
  obtain rfl | rfl := hsign
  · have := (hcovers a).mp ⟨by omega, by omega⟩
    omega
  · have hle := badBefore_le_add bad text hab
    have := (hcovers (a + -1 * badBefore bad text a)).mpr ⟨le_rfl, by omega⟩
    omega

theorem exists_of_both {α β : Type} {R S : α → β → Prop} {l : List α} {l' : List β}
    (hR : List.Forall₂ R l l') (hS : List.Forall₂ S l l') {a : α} (ha : a ∈ l) :
    ∃ b, R a b ∧ S a b := by
  induction hR with
  | nil => cases ha
  | cons hhead _ ih =>
    cases hS with
    | cons hhead' htail' =>
      obtain rfl | ha := List.mem_cons.mp ha
      · exact ⟨_, hhead, hhead'⟩
      · exact ih htail' ha

theorem keeps_of_not_mem {bad : QChar} (h : bad ∉ text) (offset stop : ℕ) :
    Keeps text bad offset stop := by
  have hnone (place : ℕ) : text[place]? ≠ some bad := fun hat =>
    h (List.mem_of_getElem? hat)
  exact ⟨fun hat => absurd hat (hnone offset), hnone (stop - 1)⟩

/-- With replaced characters of one kind only, entities that are taken along keep. -/
theorem keeps_of_cleaned {result : TextWithEntities} (h : Disjoint result.text result.entities)
    (hone : tab ∉ result.text ∨ carriageReturn ∉ result.text)
    (hcleaned : Cleaned result (ApplyServerCleaning result)) : KeepsEntities result := by
  intro e he hpos
  obtain ⟨hoffset, hlength, hinside⟩ := h.inside e he
  have hstop : e.stop = e.offset + e.length := rfl
  obtain ⟨a, ha⟩ : ∃ a : ℕ, e.offset = a := ⟨e.offset.toNat, by omega⟩
  obtain ⟨b, hb⟩ : ∃ b : ℕ, e.stop = (b + 1 : ℕ) := ⟨e.stop.toNat - 1, by omega⟩
  have hab : a ≤ b := by omega
  obtain ⟨htext, hplaced⟩ := replaceAllTabs_placed h
  obtain ⟨-, hmoved, hstill⟩ := applyServerCleaning_spec result
  rw [ha, hb, Int.toNat_natCast, Int.toNat_natCast]
  have hzero {bad : QChar} (hnot : bad ∉ result.text) (place : ℤ) :
      badBefore bad result.text place = 0 :=
    badBefore_eq_zero.mpr fun hmem => hnot (List.mem_of_mem_take hmem)
  obtain hnone | hnone := hone
  · refine ⟨keeps_of_not_mem hnone a (b + 1), ?_⟩
    have hsame : replaceAllTabs result = result := by
      rw [replaceAllTabs, if_neg]
      rw [not_not]
      exact List.count_eq_zero.mpr hnone
    rw [hsame] at hmoved hplaced
    have horderly := placedRight_orderly h (fun e _ _ => keeps_of_not_mem hnone _ _) hplaced
    obtain ⟨after, hleft, himage⟩ := exists_of_both (hmoved horderly) hcleaned.entities he
    obtain ⟨hstart, hlast⟩ := hleft.full (by omega)
    rw [if_pos (by omega), ha] at hstart
    rw [if_pos (by omega), hb] at hlast
    refine keeps_of_covers (.inr rfl) hab hstart hlast fun i => ?_
    rw [himage.covers, covers_iff hoffset (by omega), ha, hb, Int.toNat_natCast, Int.toNat_natCast,
      imageStart_eq (by omega), imageStart_eq (by omega), hzero hnone, hzero hnone]
    omega
  · refine ⟨?_, keeps_of_not_mem hnone a (b + 1)⟩
    have hnone' : carriageReturn ∉ (replaceAllTabs result).text := by
      rw [htext, ← List.count_eq_zero, count_expandTab, List.count_eq_zero]
      exact hnone
    have hentities := hcleaned.entities
    rw [hstill hnone'] at hentities
    obtain ⟨after, hright, himage⟩ := exists_of_both hplaced hentities he
    obtain ⟨hstart, hlast⟩ := hright.full (by omega)
    rw [if_pos (by omega), ha] at hstart
    rw [if_pos (by omega), hb] at hlast
    refine keeps_of_covers (.inl rfl) hab hstart hlast fun i => ?_
    rw [himage.covers, covers_iff hoffset (by omega), ha, hb, Int.toNat_natCast, Int.toNat_natCast,
      imageStart_eq (by omega), imageStart_eq (by omega), hzero hnone, hzero hnone]
    omega


/-- The cleaning takes the entities along when none of them begins with a replaced character
that has one of its kind before it, and none ends with one; with replaced characters of one
kind only, then alone. -/
theorem applyServerCleaning_cleaned (result : TextWithEntities)
    (h : Disjoint result.text result.entities) :
    (KeepsEntities result → Cleaned result (ApplyServerCleaning result)) ∧
      (tab ∉ result.text ∨ carriageReturn ∉ result.text →
        (Cleaned result (ApplyServerCleaning result) ↔ KeepsEntities result)) :=
  ⟨cleaned_of_keeps h, fun hone => ⟨keeps_of_cleaned h hone, cleaned_of_keeps h⟩⟩

/-- A letter behind a tab, in bold. -/
def tabAndLetter : TextWithEntities := ⟨[9, 97], [⟨.bold, 1, 1, []⟩]⟩

theorem applyServerCleaning_cleaned_letter :
    (KeepsEntities tabAndLetter → Cleaned tabAndLetter (ApplyServerCleaning tabAndLetter)) ∧
      (tab ∉ tabAndLetter.text ∨ carriageReturn ∉ tabAndLetter.text →
        (Cleaned tabAndLetter (ApplyServerCleaning tabAndLetter) ↔ KeepsEntities tabAndLetter)) :=
  applyServerCleaning_cleaned tabAndLetter (by decide)

/-- A letter and a tab, both in bold: one of the two spaces is not. -/
theorem applyServerCleaning_loses_space :
    ¬ ∀ result : TextWithEntities, Disjoint result.text result.entities →
      Cleaned result (ApplyServerCleaning result) := by
  intro h
  have hcleaned := h ⟨[97, 9], [⟨.bold, 0, 2, []⟩]⟩ (by decide)
  have hresult : ApplyServerCleaning ⟨[97, 9], [⟨.bold, 0, 2, []⟩]⟩ =
      ⟨[97, 32, 32], [⟨.bold, 0, 2, []⟩]⟩ := by decide
  rw [hresult] at hcleaned
  obtain ⟨himage, -⟩ := List.forall₂_cons.mp hcleaned.entities
  have := (himage.covers 2).mpr ⟨1, by decide, by decide, by decide, by decide⟩
  exact absurd this.2 (by decide)

end Bettergram.Ui.Text
