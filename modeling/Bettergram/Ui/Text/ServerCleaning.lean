import Bettergram.Ui.Text.TextEntity
import Mathlib.Algebra.Order.Ring.Int
import Mathlib.Algebra.Order.Ring.Nat
import Mathlib.Data.List.Forall2

/-! # Cleaning of a text for the server

Tabs become two spaces, carriage returns go and other bad characters become
spaces. The parts of the text between them are moved, first from the right and
then from the left, and each move takes the ends of the entities along that lie in
the part.
-/

namespace Bettergram.Ui.Text

def tab : QChar := 9
def carriageReturn : QChar := 13
def space : QChar := 32

/-- `memmove` within the text. -/
def memmove (text : QString) (target source count : ℕ) : QString :=
  text.take target ++ (text.drop source).take count ++ text.drop (target + count)

def memcpy (text : QString) (target : ℕ) (replacement : QString) : QString :=
  text.take target ++ replacement ++ text.drop (target + replacement.length)

/-- One entity when `count` characters are moved from `source` to `target`. -/
def moveEntity (target source count : ℕ) (entity : EntityInText) : EntityInText :=
  let moved :=
    if (source : ℤ) ≤ entity.offset then entity.extendToLeft (source - target) else entity
  if moved.stop ≤ source + count then moved.shrinkFromRight (source - target) else moved

/-- The loop over the entities. -/
def moveEntities (target source count : ℕ) : List EntityInText → List EntityInText
  | [] => []
  | entity :: rest =>
    if (source + count : ℤ) ≤ entity.offset then entity :: rest
    else if entity.stop ≤ source then entity :: moveEntities target source count rest
    else moveEntity target source count entity :: moveEntities target source count rest

def MoveStringPart (result : TextWithEntities) (target source count : ℕ) : TextWithEntities :=
  if count = 0 then result
  else if target ≠ source then
    ⟨memmove result.text target source count, moveEntities target source count result.entities⟩
  else result

/-- The loop over the tabs; `i` characters are left, and from `movedTill` on the text has
moved to `target`. -/
def replaceTabs : ℕ → (movedTill target : ℕ) → TextWithEntities → TextWithEntities
  | 0, _, _, result => result
  | i + 1, movedTill, target, result =>
    if result.text.getD i 0 = tab then
      let toMove := movedTill - (i + 1)
      let moved := MoveStringPart result (target - toMove) (i + 1) toMove
      replaceTabs i i (target - toMove - 2)
        { moved with text := memcpy moved.text (target - toMove - 2) [space, space] }
    else replaceTabs i movedTill target result

/-- Where the second loop stands: the text before `source` has moved to before `target`. -/
structure Cleaning where
  result : TextWithEntities
  target : ℕ
  source : ℕ

def MovePartAndGoForward (s : Cleaning) (count : ℕ) : Cleaning :=
  if count = 0 then s
  else ⟨MoveStringPart s.result s.target s.source count, s.target + count, s.source + count⟩

/-- The loop over the characters from `ch` on, `left` of them. -/
def replaceBad : (left ch : ℕ) → Cleaning → Cleaning
  | 0, _, s => s
  | left + 1, ch, s =>
    if s.result.text.getD ch 0 = carriageReturn then
      let moved := MovePartAndGoForward s (ch - s.source)
      replaceBad left (ch + 1) { moved with source := moved.source + 1 }
    else if chReplacedBySpace (s.result.text.getD ch 0) then
      replaceBad left (ch + 1)
        { s with result := { s.result with text := s.result.text.set ch space } }
    else replaceBad left (ch + 1) s

def replaceAllTabs (result : TextWithEntities) : TextWithEntities :=
  let tabs := result.text.count tab
  if tabs ≠ 0 then
    let length := result.text.length
    replaceTabs length length (length + tabs)
      { result with text := result.text ++ List.replicate tabs 0 }
  else result

def ApplyServerCleaning (result : TextWithEntities) : TextWithEntities :=
  let result := replaceAllTabs result
  let length := result.text.length
  let s := replaceBad length 0 ⟨result, 0, 0⟩
  let s := MovePartAndGoForward s (length - s.source)
  if s.target < length then { s.result with text := s.result.text.take s.target } else s.result

/-! ## What the cleaning should do -/

/-- What a character becomes. -/
def cleaned (ch : QChar) : QString :=
  if ch = tab then [space, space]
  else if ch = carriageReturn then []
  else if chReplacedBySpace ch then [space]
  else [ch]

/-- Where the image of the character at `position` begins. -/
def imageStart (text : QString) (position : ℕ) : ℕ := ((text.take position).flatMap cleaned).length

/-- The entity covers the images of the characters it covered before. -/
structure CoversImage (text : QString) (before after : EntityInText) : Prop where
  type : after.type = before.type
  data : after.data = before.data
  covers : ∀ i : ℤ, after.offset ≤ i ∧ i < after.stop ↔
    ∃ position : ℕ, before.offset ≤ position ∧ position < before.stop ∧
      imageStart text position ≤ i ∧ i < imageStart text (position + 1)

structure Cleaned (before after : TextWithEntities) : Prop where
  text : after.text = before.text.flatMap cleaned
  entities : List.Forall₂ (CoversImage before.text) before.entities after.entities

/-- The entity does not begin with a character that is replaced and has one of its kind
before it, and does not end with one. -/
structure Keeps (text : QString) (bad : QChar) (offset stop : ℕ) : Prop where
  start : text[offset]? = some bad → bad ∉ text.take offset
  last : text[stop - 1]? ≠ some bad

/-- When the cleaning takes the entities along. -/
def KeepsEntities (result : TextWithEntities) : Prop :=
  ∀ entity ∈ result.entities, 0 < entity.length →
    Keeps result.text tab entity.offset.toNat entity.stop.toNat ∧
      Keeps result.text carriageReturn entity.offset.toNat entity.stop.toNat

end Bettergram.Ui.Text

/-! ## Moving a part of a text

The ends of an entity are moved each with the part it lies in. Which of the two
lie there is decided by where they were before any move, so long as all parts on
one side have been moved away from it.
-/

namespace Bettergram.Ui.Text

/-! ## One entity -/

@[simp] theorem extendToLeft_stop (e : EntityInText) (extent : ℤ) :
    (e.extendToLeft extent).stop = e.stop := by
  simp only [EntityInText.extendToLeft, EntityInText.stop]
  omega

@[simp] theorem extendToLeft_offset (e : EntityInText) (extent : ℤ) :
    (e.extendToLeft extent).offset = e.offset - extent := rfl

@[simp] theorem shrinkFromRight_offset (e : EntityInText) (shrink : ℤ) :
    (e.shrinkFromRight shrink).offset = e.offset := rfl

@[simp] theorem shrinkFromRight_stop (e : EntityInText) (shrink : ℤ) :
    (e.shrinkFromRight shrink).stop = e.stop - shrink := by
  simp only [EntityInText.shrinkFromRight, EntityInText.stop]
  omega

/-- What the loop does with an entity it comes to. -/
def movedEntity (target source count : ℕ) (entity : EntityInText) : EntityInText :=
  if (source + count : ℤ) ≤ entity.offset then entity
  else if entity.stop ≤ source then entity
  else moveEntity target source count entity

theorem moveEntity_same (target source count : ℕ) (e : EntityInText) :
    (moveEntity target source count e).type = e.type ∧
      (moveEntity target source count e).data = e.data := by
  simp only [moveEntity]
  split_ifs <;> exact ⟨rfl, rfl⟩

theorem movedEntity_same (target source count : ℕ) (e : EntityInText) :
    (movedEntity target source count e).type = e.type ∧
      (movedEntity target source count e).data = e.data := by
  rw [movedEntity]
  split_ifs
  · exact ⟨rfl, rfl⟩
  · exact ⟨rfl, rfl⟩
  · exact moveEntity_same target source count e

theorem moveEntity_offset (target source count : ℕ) (e : EntityInText) :
    (moveEntity target source count e).offset =
      if (source : ℤ) ≤ e.offset then e.offset + (target - source) else e.offset := by
  simp only [moveEntity]
  split_ifs <;> simp only [shrinkFromRight_offset, extendToLeft_offset] <;> omega

theorem moveEntity_stop (target source count : ℕ) (e : EntityInText) :
    (moveEntity target source count e).stop =
      if e.stop ≤ source + count then e.stop + (target - source) else e.stop := by
  have hmoved : (if (source : ℤ) ≤ e.offset then e.extendToLeft (source - target) else e).stop =
      e.stop := by
    split_ifs
    · exact extendToLeft_stop e _
    · rfl
  simp only [moveEntity]
  rw [hmoved]
  by_cases h : e.stop ≤ source + count
  · rw [if_pos h, if_pos h, shrinkFromRight_stop, hmoved]
    omega
  · rw [if_neg h, if_neg h, hmoved]

/-- The ends of an entity that lie in the part go with it. -/
theorem movedEntity_ends (target source count : ℕ) {before e : EntityInText}
    (hlt : before.offset < before.stop)
    (hbehind : (source + count : ℤ) ≤ e.offset ↔ (source + count : ℤ) ≤ before.offset)
    (hfront : e.stop ≤ source ↔ before.stop ≤ source)
    (hstart : source ≤ e.offset ↔ source ≤ before.offset)
    (hlast : e.stop ≤ source + count ↔ before.stop ≤ source + count) :
    (movedEntity target source count e).offset =
        (if (source : ℤ) ≤ before.offset ∧ before.offset < source + count
          then e.offset + (target - source) else e.offset) ∧
      (movedEntity target source count e).stop =
        if (source : ℤ) < before.stop ∧ before.stop ≤ source + count
          then e.stop + (target - source) else e.stop := by
  rw [movedEntity]
  by_cases h1 : (source + count : ℤ) ≤ e.offset
  · rw [if_pos h1]
    rw [hbehind] at h1
    rw [if_neg (by omega), if_neg (by omega)]
    exact ⟨rfl, rfl⟩
  rw [if_neg h1]
  rw [hbehind] at h1
  by_cases h2 : e.stop ≤ source
  · rw [if_pos h2]
    rw [hfront] at h2
    rw [if_neg (by omega), if_neg (by omega)]
    exact ⟨rfl, rfl⟩
  rw [if_neg h2, moveEntity_offset, moveEntity_stop]
  rw [hfront] at h2
  constructor
  · by_cases h : (source : ℤ) ≤ before.offset
    · rw [if_pos (hstart.mpr h), if_pos ⟨h, by omega⟩]
    · rw [if_neg (mt hstart.mp h), if_neg (by omega)]
  · by_cases h : before.stop ≤ source + count
    · rw [if_pos (hlast.mpr h), if_pos ⟨by omega, h⟩]
    · rw [if_neg (mt hlast.mp h), if_neg (by omega)]

/-- An empty entity stays one, and goes with the part when it lies within. -/
theorem movedEntity_empty (target source count : ℕ) {e : EntityInText} (h : e.length = 0) :
    (movedEntity target source count e).length = 0 ∧
      (movedEntity target source count e).offset =
        if (source : ℤ) < e.offset ∧ e.offset < source + count
          then e.offset + (target - source) else e.offset := by
  have hstop : e.stop = e.offset := by rw [EntityInText.stop, h, add_zero]
  have hlength (e : EntityInText) : e.length = e.stop - e.offset := by
    rw [EntityInText.stop]
    omega
  rw [hlength, movedEntity]
  by_cases h1 : (source + count : ℤ) ≤ e.offset
  · rw [if_pos h1, if_neg (by omega)]
    exact ⟨by omega, rfl⟩
  rw [if_neg h1]
  by_cases h2 : e.stop ≤ source
  · rw [if_pos h2, if_neg (by omega)]
    exact ⟨by omega, rfl⟩
  rw [if_neg h2, moveEntity_stop, moveEntity_offset, if_pos (by omega), if_pos (by omega),
    if_pos (by omega)]
  exact ⟨by omega, rfl⟩

/-! ## All of them -/

/-- The loop stops at the first entity behind the part; so the later ones, too, must be as
they should be already. -/
theorem moveEntities_forall₂ {target source count : ℕ}
    {P Q Later : EntityInText → EntityInText → Prop}
    (hmove : ∀ before e, P before e → Q before (movedEntity target source count e))
    (hbreak : ∀ before e, P before e → (source + count : ℤ) ≤ e.offset →
      ∀ before' e', Later before before' → P before' e' → Q before' e')
    {original current : List EntityInText} (hlater : original.Pairwise Later)
    (h : List.Forall₂ P original current) :
    List.Forall₂ Q original (moveEntities target source count current) := by
  induction h with
  | nil => exact List.Forall₂.nil
  | @cons before e originals currents hhead htail ih =>
    obtain ⟨hfirst, hrest⟩ := List.pairwise_cons.mp hlater
    have hmoved := hmove before e hhead
    rw [moveEntities]
    rw [movedEntity] at hmoved
    split_ifs at hmoved ⊢ with h1 h2
    · refine List.Forall₂.cons hmoved ?_
      have hall : ∀ before' ∈ originals, Later before before' := hfirst
      clear ih hrest hfirst
      induction htail with
      | nil => exact List.Forall₂.nil
      | cons hhead' _ ih' =>
        rw [List.forall_mem_cons] at hall
        exact List.Forall₂.cons (hbreak before e hhead h1 _ _ hall.1 hhead')
          (ih' (List.pairwise_cons.mpr ⟨hall.2, (List.pairwise_cons.mp
            (List.pairwise_cons.mp hlater).2).2⟩) hall.2)
    · exact List.Forall₂.cons hmoved (ih hrest)
    · exact List.Forall₂.cons hmoved (ih hrest)


/-! ## A part -/

theorem moveEntity_self (source count : ℕ) (e : EntityInText) :
    moveEntity source source count e = e := by
  simp only [moveEntity, sub_self]
  have hextend : e.extendToLeft 0 = e := by simp [EntityInText.extendToLeft]
  have hshrink : e.shrinkFromRight 0 = e := by simp [EntityInText.shrinkFromRight]
  split_ifs <;> simp only [hextend, hshrink]

theorem moveEntities_self (source count : ℕ) (entities : List EntityInText) :
    moveEntities source source count entities = entities := by
  induction entities with
  | nil => rfl
  | cons e rest ih =>
    rw [moveEntities, ih, moveEntity_self, ite_self, ite_self]

theorem moveEntities_zero (target source : ℕ) (entities : List EntityInText) :
    moveEntities target source 0 entities = entities := by
  induction entities with
  | nil => rfl
  | cons e rest ih =>
    rw [moveEntities, ih]
    split_ifs with h1 h2
    · rfl
    · rfl
    · rw [Nat.cast_zero, add_zero] at h1
      simp only [moveEntity, if_neg h1]
      rw [Nat.cast_zero, add_zero, if_neg h2]

theorem memmove_self (text : QString) (source count : ℕ) :
    memmove text source source count = text := by
  rw [memmove, ← List.drop_drop, List.append_assoc, List.take_append_drop, List.take_append_drop]

theorem memmove_zero (text : QString) (target source : ℕ) :
    memmove text target source 0 = text := by
  rw [memmove, List.take_zero, List.append_nil, Nat.add_zero, List.take_append_drop]

/-- The cases in which nothing is done make no difference. -/
theorem moveStringPart_eq (result : TextWithEntities) (target source count : ℕ) :
    MoveStringPart result target source count =
      ⟨memmove result.text target source count,
        moveEntities target source count result.entities⟩ := by
  rw [MoveStringPart]
  split_ifs with hcount hne
  · rw [hcount, memmove_zero, moveEntities_zero]
  · rfl
  · rw [not_not.mp hne, memmove_self, moveEntities_self]

/-! ## Places -/

/-- The number of bad characters before a place. -/
def badBefore (bad : QChar) (text : QString) (place : ℤ) : ℤ :=
  (text.take place.toNat).count bad

/-- Where the moves leave the start of an entity; `sign` tells their direction. -/
def startPlace (bad : QChar) (sign : ℤ) (text : QString) (place : ℤ) : ℤ :=
  if text[place.toNat]? = some bad then place else place + sign * badBefore bad text place

/-- Where the moves leave the end of an entity. -/
def stopPlace (bad : QChar) (sign : ℤ) (text : QString) (place : ℤ) : ℤ :=
  if text[(place - 1).toNat]? = some bad then place
  else place + sign * badBefore bad text place

variable {bad : QChar} {sign : ℤ} {text : QString}

theorem badBefore_nonneg (bad : QChar) (text : QString) (place : ℤ) :
    0 ≤ badBefore bad text place := Int.natCast_nonneg _

theorem badBefore_mono (bad : QChar) (text : QString) {a b : ℤ} (h : a ≤ b) :
    badBefore bad text a ≤ badBefore bad text b := by
  rw [badBefore, badBefore, Int.ofNat_le]
  exact (List.take_sublist_take_left (by omega)).count_le bad

theorem badBefore_eq_zero {place : ℤ} :
    badBefore bad text place = 0 ↔ bad ∉ text.take place.toNat := by
  rw [badBefore, Int.natCast_eq_zero, List.count_eq_zero]

/-- No bad character lies between two places. -/
theorem badBefore_eq {a b : ℕ} (hnone : ∀ j, a ≤ j → j < b → text[j]? ≠ some bad) (place : ℤ)
    (ha : (a : ℤ) ≤ place) (hb : place ≤ b) : badBefore bad text place = badBefore bad text a := by
  have hcut : text.take place.toNat = text.take a ++ (text.drop a).take (place.toNat - a) := by
    rw [← List.take_add, Nat.add_sub_cancel' (by omega)]
  have hzero : ((text.drop a).take (place.toNat - a)).count bad = 0 := by
    rw [List.count_eq_zero]
    intro hmem
    obtain ⟨i, hi, hget⟩ := List.mem_iff_getElem.mp hmem
    rw [List.length_take, List.length_drop] at hi
    rw [List.getElem_take, List.getElem_drop] at hget
    refine hnone (a + i) (by omega) (by omega) ?_
    rw [List.getElem?_eq_getElem (by omega), hget]
  rw [badBefore, badBefore, hcut, List.count_append, hzero, Nat.add_zero, Int.toNat_natCast]

theorem badBefore_succ {place : ℕ} (h : text[place]? = some bad) :
    badBefore bad text (place + 1 : ℕ) = badBefore bad text place + 1 := by
  rw [badBefore, badBefore, Int.toNat_natCast, Int.toNat_natCast, List.take_add_one, h]
  simp


/-! ## Memory -/

theorem memmove_take (text : QString) {target : ℕ} (source count : ℕ) {length : ℕ}
    (h : length ≤ target) (htarget : target ≤ text.length) :
    (memmove text target source count).take length = text.take length := by
  rw [memmove, List.append_assoc, List.take_append_of_le_length (by rw [List.length_take]; omega),
    List.take_take, Nat.min_eq_left h]

theorem memmove_drop (text : QString) {target : ℕ} (source count : ℕ)
    (htarget : target ≤ text.length) :
    (memmove text target source count).drop target =
      (text.drop source).take count ++ text.drop (target + count) := by
  rw [memmove, List.append_assoc, List.drop_append_of_le_length
    (by rw [List.length_take]; omega), List.drop_eq_nil_of_le (by rw [List.length_take]; omega),
    List.nil_append]

theorem memmove_length (text : QString) {target source count : ℕ}
    (htarget : target + count ≤ text.length) (hsource : source + count ≤ text.length) :
    (memmove text target source count).length = text.length := by
  simp only [memmove, List.length_append, List.length_take, List.length_drop]
  omega

theorem memcpy_take (text replacement : QString) {target length : ℕ} (h : length ≤ target)
    (htarget : target ≤ text.length) :
    (memcpy text target replacement).take length = text.take length := by
  rw [memcpy, List.append_assoc, List.take_append_of_le_length (by rw [List.length_take]; omega),
    List.take_take, Nat.min_eq_left h]

theorem memcpy_drop (text replacement : QString) {target : ℕ} (htarget : target ≤ text.length) :
    (memcpy text target replacement).drop target =
      replacement ++ text.drop (target + replacement.length) := by
  rw [memcpy, List.append_assoc, List.drop_append_of_le_length
    (by rw [List.length_take]; omega), List.drop_eq_nil_of_le (by rw [List.length_take]; omega),
    List.nil_append]

theorem memcpy_length (text replacement : QString) {target : ℕ}
    (h : target + replacement.length ≤ text.length) :
    (memcpy text target replacement).length = text.length := by
  simp only [memcpy, List.length_append, List.length_take, List.length_drop]
  omega


theorem memmove_take_moved (text : QString) {target source count : ℕ}
    (htarget : target ≤ text.length) (hsource : source + count ≤ text.length) :
    (memmove text target source count).take (target + count) =
      text.take target ++ (text.drop source).take count := by
  have hlength : (text.take target ++ (text.drop source).take count).length = target + count := by
    simp only [List.length_append, List.length_take, List.length_drop]
    omega
  rw [memmove, List.take_append_of_le_length hlength.ge, ← hlength, List.take_length]

theorem memmove_drop_behind (text : QString) {target source count : ℕ} {place : ℕ}
    (htarget : target ≤ text.length) (hsource : source + count ≤ text.length)
    (h : target + count ≤ place) :
    (memmove text target source count).drop place = text.drop place := by
  have hlength : (text.take target ++ (text.drop source).take count).length = target + count := by
    simp only [List.length_append, List.length_take, List.length_drop]
    omega
  rw [memmove, List.drop_append, List.drop_eq_nil_of_le (by omega), hlength, List.nil_append,
    List.drop_drop, Nat.add_sub_cancel' h]


theorem badBefore_le_add (bad : QChar) (text : QString) {a b : ℕ} (h : a ≤ b) :
    badBefore bad text b ≤ badBefore bad text a + (b - a) := by
  have hcount := (text.drop a).take (b - a) |>.count_le_length (a := bad)
  have hlength : ((text.drop a).take (b - a)).length ≤ b - a := List.length_take_le _ _
  simp only [badBefore, Int.toNat_natCast]
  rw [← Nat.add_sub_cancel' h, List.take_add, List.count_append]
  omega

end Bettergram.Ui.Text
