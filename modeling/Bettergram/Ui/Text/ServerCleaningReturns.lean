import Bettergram.Ui.Text.ServerCleaning

/-! # Carriage returns

The parts between the carriage returns move to the left, the first one first.
Again a start on a carriage return and an end behind one stay.
-/

namespace Bettergram.Ui.Text

variable {text : QString}

/-! ## Entities -/

/-- An entity when the parts before `moved` have moved. -/
structure PlacedLeft (text : QString) (moved : ℕ) (before e : EntityInText) : Prop where
  type : e.type = before.type
  data : e.data = before.data
  nonneg : 0 ≤ before.offset ∧ 0 ≤ before.length
  empty : before.length = 0 → e.length = 0 ∧ (moved ≤ before.offset → e.offset = before.offset) ∧
    e.offset ≤ before.offset
  full : before.offset < before.stop →
    e.offset = (if before.offset < moved then startPlace carriageReturn (-1) text before.offset
      else before.offset) ∧
    e.stop = if before.stop ≤ moved then stopPlace carriageReturn (-1) text before.stop
      else before.stop

theorem startPlace_le (text : QString) (place : ℤ) :
    startPlace carriageReturn (-1) text place ≤ place := by
  have := badBefore_nonneg carriageReturn text place
  rw [startPlace]
  split_ifs <;> omega

theorem stopPlace_le (text : QString) (place : ℤ) :
    stopPlace carriageReturn (-1) text place ≤ place := by
  have := badBefore_nonneg carriageReturn text place
  rw [stopPlace]
  split_ifs <;> omega

/-- The part from `source` on moves, up to `next`. -/
theorem PlacedLeft.part {source next : ℕ} {before e : EntityInText}
    (h : PlacedLeft text source before e) (hle : source ≤ next)
    (hnone : ∀ j, source ≤ j → j < next → text[j]? ≠ some carriageReturn) {target : ℕ}
    (htarget : (target : ℤ) = source - badBefore carriageReturn text source) :
    PlacedLeft text next before (movedEntity target source (next - source) e) := by
  obtain ⟨hsameType, hsameData⟩ := movedEntity_same target source (next - source) e
  have hcount {place : ℤ} (h1 : (source : ℤ) ≤ place) (h2 : place ≤ next) :
      badBefore carriageReturn text place = badBefore carriageReturn text source :=
    badBefore_eq hnone _ h1 h2
  have hadd : (source : ℤ) + (next - source : ℕ) = next := by omega
  refine ⟨hsameType.trans h.type, hsameData.trans h.data, h.nonneg, fun hempty => ?_,
    fun hfull => ?_⟩
  · obtain ⟨hzero, hbehind, hfront⟩ := h.empty hempty
    obtain ⟨hstill, hmoved⟩ := movedEntity_empty target source (next - source) hzero
    rw [hadd] at hmoved
    refine ⟨hstill, fun hlt => ?_, ?_⟩
    · rw [hmoved, if_neg (by have := hbehind (by omega); omega)]
      exact hbehind (by omega)
    · have := badBefore_nonneg carriageReturn text source
      rw [hmoved]
      split_ifs <;> omega
  · obtain ⟨hstart, hstop⟩ := h.full hfull
    have hstartLe := startPlace_le text before.offset
    have hstopLe := stopPlace_le text before.stop
    obtain ⟨hends, hendsStop⟩ := movedEntity_ends target source (next - source) hfull (e := e)
      (by rw [hadd, hstart]; split_ifs <;> omega) (by rw [hstop]; split_ifs <;> omega)
      (by rw [hstart]; split_ifs <;> omega) (by rw [hadd, hstop]; split_ifs <;> omega)
    rw [hadd] at hends hendsStop
    constructor
    · rw [hends, hstart]
      by_cases hin : (source : ℤ) ≤ before.offset ∧ before.offset < next
      · rw [if_pos hin, if_neg (by omega), if_pos (by omega), startPlace,
          if_neg (hnone _ (by omega) (by omega)), hcount hin.1 hin.2.le]
        omega
      · rw [if_neg hin]
        split_ifs <;> omega
    · rw [hendsStop, hstop]
      by_cases hin : (source : ℤ) < before.stop ∧ before.stop ≤ next
      · rw [if_pos hin, if_neg (by omega), if_pos (by omega), stopPlace,
          if_neg (hnone _ (by omega) (by omega)), hcount hin.1.le hin.2]
        omega
      · rw [if_neg hin]
        split_ifs <;> omega

/-- A carriage return is left out. -/
theorem PlacedLeft.skip {next : ℕ} {before e : EntityInText} (h : PlacedLeft text next before e)
    (hreturn : text[next]? = some carriageReturn) : PlacedLeft text (next + 1) before e := by
  refine ⟨h.type, h.data, h.nonneg, fun hempty => ?_, fun hfull => ?_⟩
  · obtain ⟨hzero, hbehind, hfront⟩ := h.empty hempty
    exact ⟨hzero, fun hlt => hbehind (by omega), hfront⟩
  · obtain ⟨hstart, hstop⟩ := h.full hfull
    constructor
    · rw [hstart]
      by_cases hat : before.offset = next
      · have : text[before.offset.toNat]? = some carriageReturn := by rwa [hat, Int.toNat_natCast]
        rw [if_neg (by omega), if_pos (by omega), startPlace, if_pos this]
      · split_ifs <;> omega
    · rw [hstop]
      by_cases hat : before.stop = next + 1
      · have : text[(before.stop - 1).toNat]? = some carriageReturn := by
          rwa [hat, add_sub_cancel_right, Int.toNat_natCast]
        rw [if_neg (by omega), if_pos (by omega), stopPlace, if_pos this]
      · split_ifs <;> omega

/-- A later entity that is not empty starts no earlier. -/
def StartsLater (a b : EntityInText) : Prop := a.offset ≤ b.offset ∨ b.length = 0

theorem placedLeft_moveEntities {source next : ℕ} {original current : List EntityInText}
    (hlater : original.Pairwise StartsLater)
    (h : List.Forall₂ (PlacedLeft text source) original current) (hle : source ≤ next)
    (hnone : ∀ j, source ≤ j → j < next → text[j]? ≠ some carriageReturn) {target : ℕ}
    (htarget : (target : ℤ) = source - badBefore carriageReturn text source) :
    List.Forall₂ (PlacedLeft text next) original
      (moveEntities target source (next - source) current) := by
  refine moveEntities_forall₂ (fun before e he => he.part hle hnone htarget) ?_ hlater h
  intro before e he hbreak before' e' hlater' he'
  have hadd : (source : ℤ) + (next - source : ℕ) = next := by omega
  rw [hadd] at hbreak
  have hbehind : next ≤ before.offset := by
    obtain hzero | hpos := he.nonneg.2.eq_or_lt
    · have := (he.empty hzero.symm).2.2
      omega
    · have hstart := (he.full (by rw [EntityInText.stop]; omega)).1
      have := startPlace_le text before.offset
      split_ifs at hstart <;> omega
  refine ⟨he'.type, he'.data, he'.nonneg, fun hempty => ?_, fun hfull => ?_⟩
  · obtain ⟨hzero, hstill, hfront⟩ := he'.empty hempty
    exact ⟨hzero, fun hlt => hstill (by omega), hfront⟩
  · obtain ⟨hstart, hstop⟩ := he'.full hfull
    have hstarts : next ≤ before'.offset := by
      obtain hle' | hempty := hlater'
      · omega
      · rw [EntityInText.stop, hempty] at hfull
        omega
    rw [if_neg (by omega)] at hstart hstop
    rw [if_neg (by omega), if_neg (by omega)]
    exact ⟨hstart, hstop⟩


/-! ## Text -/

def fixed (ch : QChar) : QChar := if chReplacedBySpace ch then space else ch

def dropReturn (ch : QChar) : QString := if ch = carriageReturn then [] else [fixed ch]

/-- The entities are in order and none has its end before its start. -/
structure Orderly (entities : List EntityInText) : Prop where
  later : entities.Pairwise StartsLater
  nonneg : ∀ e ∈ entities, 0 ≤ e.offset ∧ 0 ≤ e.length

/-- The text when the characters before `ch` have been looked at. -/
structure ReturnsMoved (text : QString) (original : List EntityInText) (ch : ℕ) (s : Cleaning) :
    Prop where
  le : s.source ≤ ch
  inside : ch ≤ text.length
  noReturn : ∀ j, s.source ≤ j → j < ch → text[j]? ≠ some carriageReturn
  shifted : s.target + (text.take s.source).count carriageReturn = s.source
  length : s.result.text.length = text.length
  front : s.result.text.take s.target = (text.take s.source).flatMap dropReturn
  middle : (s.result.text.drop s.source).take (ch - s.source) =
    ((text.drop s.source).take (ch - s.source)).map fixed
  rest : s.result.text.drop ch = text.drop ch
  entities : Orderly original → List.Forall₂ (PlacedLeft text s.source) original s.result.entities
  still : carriageReturn ∉ text → s.result.entities = original

theorem flatMap_dropReturn_eq {piece : QString} (h : carriageReturn ∉ piece) :
    piece.flatMap dropReturn = piece.map fixed := by
  induction piece with
  | nil => rfl
  | cons ch piece ih =>
    rw [List.mem_cons, not_or] at h
    rw [List.flatMap_cons, ih h.2, dropReturn, if_neg (Ne.symm h.1), List.map_cons]
    rfl

theorem movePartAndGoForward_eq (s : Cleaning) (count : ℕ) :
    MovePartAndGoForward s count =
      ⟨MoveStringPart s.result s.target s.source count, s.target + count, s.source + count⟩ := by
  rw [MovePartAndGoForward]
  split_ifs with hcount
  · rw [hcount, MoveStringPart, if_pos rfl]
    rfl
  · rfl

/-- The part before `ch` moves. -/
theorem ReturnsMoved.movePart {original : List EntityInText} {ch : ℕ} {s : Cleaning}
    (h : ReturnsMoved text original ch s) :
    ReturnsMoved text original ch (MovePartAndGoForward s (ch - s.source)) ∧
      (MovePartAndGoForward s (ch - s.source)).source = ch := by
  have hle := h.le
  have hinside := h.inside
  have hshifted := h.shifted
  have hlength := h.length
  have hcount : (text.take ch).count carriageReturn =
      (text.take s.source).count carriageReturn := by
    have heq := badBefore_eq h.noReturn ch (by omega) le_rfl
    simp only [badBefore, Int.toNat_natCast] at heq
    omega
  have hnot : carriageReturn ∉ (text.drop s.source).take (ch - s.source) := by
    intro hmem
    obtain ⟨j, hj, hget⟩ := List.mem_iff_getElem.mp hmem
    rw [List.length_take, List.length_drop] at hj
    rw [List.getElem_take, List.getElem_drop] at hget
    refine h.noReturn (s.source + j) (by omega) (by omega) ?_
    rw [List.getElem?_eq_getElem (by omega), hget]
  have hsource : s.source + (ch - s.source) = ch := by omega
  rw [movePartAndGoForward_eq, moveStringPart_eq, hsource]
  refine ⟨⟨le_rfl, hinside, fun j hj hlt => by simp only at hj; omega, ?_, ?_, ?_, ?_, ?_,
    fun horderly => ?_, fun hnone => ?_⟩, rfl⟩
  · simp only
    omega
  · simp only
    rw [memmove_length, hlength] <;> omega
  · simp only
    rw [memmove_take_moved _ (by omega) (by omega), h.front, h.middle,
      ← flatMap_dropReturn_eq hnot, ← List.flatMap_append, ← List.take_add, hsource]
  · simp only
    rw [Nat.sub_self, List.take_zero, List.take_zero]
    rfl
  · simp only
    rw [memmove_drop_behind _ (by omega) (by omega) (by omega), h.rest]
  · refine placedLeft_moveEntities horderly.later (h.entities horderly) hle h.noReturn ?_
    simp only [badBefore, Int.toNat_natCast]
    omega
  · have hzero : (text.take s.source).count carriageReturn = 0 :=
      List.count_eq_zero.mpr fun hmem => hnone (List.mem_of_mem_take hmem)
    have htarget : s.target = s.source := by omega
    simp only
    rw [htarget, moveEntities_self]
    exact h.still hnone

/-- A carriage return with the part before it. -/
theorem ReturnsMoved.atReturn {original : List EntityInText} {ch : ℕ} {s : Cleaning}
    (h : ReturnsMoved text original ch s) (hreturn : text[ch]? = some carriageReturn) :
    ReturnsMoved text original (ch + 1) { MovePartAndGoForward s (ch - s.source) with
      source := (MovePartAndGoForward s (ch - s.source)).source + 1 } := by
  obtain ⟨hmoved, hsource⟩ := h.movePart
  generalize MovePartAndGoForward s (ch - s.source) = s' at hmoved hsource ⊢
  subst hsource
  have hlt : s'.source < text.length := by
    rw [List.getElem?_eq_some_iff] at hreturn
    exact hreturn.1
  have hcount := badBefore_succ hreturn
  simp only [badBefore, Int.toNat_natCast] at hcount
  have hshifted := hmoved.shifted
  refine ⟨le_rfl, hlt, fun j hj hlt => by simp only at hj; omega, ?_, hmoved.length,
    ?_, ?_, ?_, ?_, hmoved.still⟩
  · simp only
    omega
  · simp only
    rw [hmoved.front, List.take_add_one, hreturn, List.flatMap_append]
    rw [Option.toList_some, List.flatMap_singleton, dropReturn, if_pos rfl, List.append_nil]
  · simp only
    rw [Nat.sub_self, List.take_zero, List.take_zero]
    rfl
  · simp only
    rw [← List.drop_drop, hmoved.rest, List.drop_drop]
  · exact fun horderly => (hmoved.entities horderly).imp fun before e he => he.skip hreturn


/-- Any other character; it is replaced when it is bad. -/
theorem ReturnsMoved.atOther {original : List EntityInText} {ch : ℕ} {s : Cleaning}
    (h : ReturnsMoved text original ch s) (hlt : ch < text.length)
    (hother : text[ch] ≠ carriageReturn) {new : QString}
    (hnew : new = s.result.text.set ch (fixed text[ch])) :
    ReturnsMoved text original (ch + 1)
      { s with result := { s.result with text := new } } := by
  have hle := h.le
  have hshifted := h.shifted
  have hlength := h.length
  subst hnew
  refine ⟨by simp only; omega, hlt, fun j hj hltj => ?_, h.shifted, ?_, ?_, ?_, ?_,
    h.entities, h.still⟩
  · obtain hj' | rfl := Nat.lt_succ_iff_lt_or_eq.mp hltj
    · exact h.noReturn j hj hj'
    · rw [List.getElem?_eq_getElem hlt, Ne, Option.some.injEq]
      exact hother
  · simp only [List.length_set, hlength]
  · simp only
    rw [List.take_set_of_le (by omega), h.front]
  · simp only
    have hcut : ch + 1 - s.source = ch - s.source + 1 := by omega
    rw [hcut, List.take_add_one, List.take_add_one, List.map_append, ← h.middle, List.getElem?_drop,
      List.getElem?_drop, Nat.add_sub_cancel' hle, List.getElem?_set_self (by omega),
      List.getElem?_eq_getElem hlt, List.drop_set, if_neg (by omega), List.take_set_of_le le_rfl]
    rfl
  · simp only
    rw [List.drop_set_of_lt (by omega), ← List.drop_drop, h.rest, List.drop_drop]

theorem replaceBad_moved {original : List EntityInText} {left ch : ℕ} {s : Cleaning}
    (h : ReturnsMoved text original ch s)
    (hleft : ch + left = text.length) :
    ReturnsMoved text original text.length (replaceBad left ch s) := by
  induction left generalizing ch s with
  | zero =>
    rw [← hleft]
    exact h
  | succ left ih =>
    have hlt : ch < text.length := by omega
    have hget : s.result.text.getD ch 0 = text[ch] := by
      have hsame : s.result.text[ch]? = text[ch]? := by
        rw [← List.head?_drop, h.rest, List.head?_drop]
      rw [List.getD_eq_getElem?_getD, hsame, List.getElem?_eq_getElem hlt, Option.getD_some]
    rw [replaceBad, hget]
    by_cases hreturn : text[ch] = carriageReturn
    · rw [if_pos hreturn]
      exact ih (h.atReturn (by rw [List.getElem?_eq_getElem hlt, hreturn])) (by omega)
    · rw [if_neg hreturn]
      by_cases hbad : chReplacedBySpace text[ch] = true
      · rw [if_pos hbad]
        refine ih (h.atOther hlt hreturn ?_) (by omega)
        rw [fixed, if_pos hbad]
      · rw [if_neg hbad]
        have hsame : s.result.text = s.result.text.set ch (fixed text[ch]) := by
          rw [fixed, if_neg hbad, ← hget, List.getD_eq_getElem?_getD, List.getElem?_eq_getElem
            (by rw [h.length]; exact hlt), Option.getD_some, List.set_getElem_self]
        exact ih (h.atOther hlt hreturn hsame) (by omega)

end Bettergram.Ui.Text
