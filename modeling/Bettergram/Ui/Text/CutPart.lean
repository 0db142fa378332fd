import Bettergram.Ui.Text.TextEntity
import Mathlib.Algebra.Order.Ring.Int
import Mathlib.Algebra.Order.Ring.Nat
import Mathlib.Data.List.TakeWhile

/-! # Splitting of a long text

A part is cut from the front of a text when it has too many characters. The best
place for the cut is looked for in the second half of what the part may have.
-/

namespace Bettergram.Ui.Text

/-- `Ui::Emoji::Find`: the length of the emoji at the beginning of a text. -/
structure EmojiFind where
  find : QString → Option ℕ
  pos : ∀ rest length, find rest = some length → 0 < length
  le : ∀ rest length, find rest = some length → length ≤ rest.length
  whole : ∀ rest length, find rest = some length →
    ¬ (isHighSurrogate (charAt rest (length - 1)) = true ∧
      isLowSurrogate (charAt rest length) = true)

/-- The characters of an emoji: a surrogate pair is one. -/
def codePoints : QString → ℕ
  | [] => 0
  | [_] => 1
  | first :: second :: rest =>
    if isHighSurrogate first && isLowSurrogate second then 1 + codePoints rest
    else 1 + codePoints (second :: rest)

/-- The length of what stands at the beginning of a text, and for how many characters it
counts. -/
def advance (emoji : EmojiFind) (rest : QString) : ℕ × ℕ :=
  match emoji.find rest with
  | some length => (length, codePoints (rest.take length))
  | none =>
    if isHighSurrogate (charAt rest 0) && decide (1 < rest.length) &&
        isLowSurrogate (charAt rest 1) then (2, 1)
    else (1, 1)

section Cut

variable (q : Tables) (emoji : EmojiFind) (limit : ℕ) (left : TextWithEntities)

/-- The place for the cut. -/
structure Good where
  good : ℕ
  goodEntity : ℕ
  goodLevel : ℕ
  goodInEntity : Bool
  goodCanBreakEntity : Bool
  deriving DecidableEq, Repr

/-- Goes over the entities that end at `ch` or before. -/
def skipEntities (ch currentEntity : ℕ) : ℕ :=
  currentEntity + ((left.entities.drop currentEntity).takeWhile fun entity =>
    entity.stop ≤ (ch : ℤ)).length

def isInEntity (ch currentEntity : ℕ) : Bool :=
  match left.entities[currentEntity]? with
  | some entity => entity.offset < ch && ch < entity.stop
  | none => false

def canBreakEntity (currentEntity : ℕ) : Bool :=
  match left.entities[currentEntity]? with
  | some entity => entity.type = .pre || entity.type = .code
  | none => false

/-- The line feed at `ch` stands just before the next `pre` entity. -/
def isBeforePre (ch currentEntity : ℕ) : Bool :=
  match left.entities[currentEntity]? with
  | some entity => (ch + 1 : ℤ) = entity.offset && entity.type = .pre
  | none => false

/-- The line feed at `ch` stands just behind the last `pre` entity. -/
def isBehindPre (ch currentEntity : ℕ) : Bool :=
  match left.entities[currentEntity - 1]? with
  | some entity => 0 < currentEntity && (ch : ℤ) = entity.stop && entity.type = .pre
  | none => false

def levelAt (ch currentEntity : ℕ) : ℕ :=
  let inEntity := isInEntity left ch currentEntity
  let noEntityLevel := if inEntity then 0 else 1
  let newlineNext := decide (ch + 1 < left.text.length) && chIsNewline (charAt left.text (ch + 1))
  if inEntity && !canBreakEntity left currentEntity then 0
  else if chIsNewline (charAt left.text ch) then
    if inEntity then if newlineNext then 12 else 11
    else if newlineNext then 15
    else if isBeforePre left ch currentEntity then 14
    else if isBehindPre left ch currentEntity then 14
    else 13
  else if chIsSpace q (charAt left.text ch) then
    if chIsSentenceEnd (charAt left.text (ch - 1)) then 9 + noEntityLevel
    else if chIsSentencePartEnd (charAt left.text (ch - 1)) then 7 + noEntityLevel
    else 5 + noEntityLevel
  else if chIsWordSeparator (charAt left.text (ch - 1)) then 3 + noEntityLevel
  else 1 + noEntityLevel

def markGoodAsLevel (ch currentEntity newLevel : ℕ) (good : Good) : Good :=
  if newLevel < good.goodLevel then good
  else
    { good := ch
      goodEntity := currentEntity
      goodLevel := newLevel
      goodInEntity := isInEntity left ch currentEntity
      goodCanBreakEntity := canBreakEntity left currentEntity }

/-- The loop over the text from `ch` on, before which there are `s` characters; `none` says
that the text ends before the limit. -/
def findCut : ℕ → (ch s currentEntity : ℕ) → Good → Option Good
  | 0, _, _, _, _ => none
  | fuel + 1, ch, s, currentEntity, good =>
    if ch < left.text.length then
      let currentEntity := skipEntities left ch currentEntity
      let good := if limit / 2 < s then
          markGoodAsLevel left ch currentEntity (levelAt q left ch currentEntity) good
        else good
      let next := advance emoji (left.text.drop ch)
      if limit ≤ s + next.2 - 1 then some good
      else findCut fuel (ch + next.1) (s + next.2) currentEntity good
    else none

def updateLastEnd (entities : List EntityInText) (textEnd : ℕ) : List EntityInText :=
  entities.dropLast ++ (entities.getLast?.map fun entity => entity.updateTextEnd textEnd).toList

/-- The part that is sent and what is left. -/
def splitAt (good : Good) : TextWithEntities × TextWithEntities :=
  let sendingText := left.text.take good.good
  let leftText := left.text.drop good.good
  if good.goodInEntity then
    if good.goodCanBreakEntity then
      (⟨sendingText, updateLastEnd (left.entities.take (good.goodEntity + 1)) good.good⟩,
        ⟨leftText, (left.entities.drop good.goodEntity).map fun entity =>
          entity.shiftLeft good.good⟩)
    else
      (⟨sendingText, left.entities.take good.goodEntity⟩,
        ⟨leftText, left.entities.drop (good.goodEntity + 1)⟩)
  else
    (⟨sendingText, left.entities.take good.goodEntity⟩,
      ⟨leftText, (left.entities.drop good.goodEntity).map fun entity =>
        entity.shiftLeft good.good⟩)

/-- `CutPart`; `none` stands for `false`. -/
def CutPart : Option (TextWithEntities × TextWithEntities) :=
  if left.text = [] ∨ limit = 0 then none
  else
    match findCut q emoji limit left left.text.length 0 0 0 ⟨0, 0, 0, false, false⟩ with
    | some good => some (splitAt left good)
    | none => some (left, ⟨[], []⟩)

end Cut

/-! ## What the parts should be -/

/-- The places the loop comes to, with the number of characters before them. -/
inductive Place (emoji : EmojiFind) (text : QString) : ℕ → ℕ → Prop
  | start : Place emoji text 0 0
  | next {ch s : ℕ} : Place emoji text ch s → ch < text.length →
      Place emoji text (ch + (advance emoji (text.drop ch)).1)
        (s + (advance emoji (text.drop ch)).2)

def Breakable (entity : EntityInText) : Prop := entity.type = .pre ∨ entity.type = .code

instance (entity : EntityInText) : Decidable (Breakable entity) :=
  inferInstanceAs (Decidable (_ ∨ _))

/-- What of an entity is before a cut: an entity that contains the cut is split or dropped. -/
def frontOf (cut : ℤ) (entity : EntityInText) : Option EntityInText :=
  if entity.stop ≤ cut then some entity
  else if entity.offset < cut ∧ Breakable entity then
    some { entity with length := cut - entity.offset }
  else none

/-- What of an entity is behind a cut. -/
def backOf (cut : ℤ) (entity : EntityInText) : Option EntityInText :=
  if entity.stop ≤ cut then none
  else if cut ≤ entity.offset then some { entity with offset := entity.offset - cut }
  else if Breakable entity then some { entity with offset := 0, length := entity.stop - cut }
  else none

def frontPart (cut : ℕ) (text : TextWithEntities) : TextWithEntities :=
  ⟨text.text.take cut, text.entities.filterMap (frontOf cut)⟩

def backPart (cut : ℕ) (text : TextWithEntities) : TextWithEntities :=
  ⟨text.text.drop cut, text.entities.filterMap (backOf cut)⟩

/-- A cut that is not within a surrogate pair or an emoji. -/
structure Whole (emoji : EmojiFind) (text : QString) (cut : ℕ) : Prop where
  pair : ¬ (isHighSurrogate (charAt text (cut - 1)) = true ∧
    isLowSurrogate (charAt text cut) = true)
  emoji : ∀ ch s length, Place emoji text ch s → emoji.find (text.drop ch) = some length →
    ¬ (ch < cut ∧ cut < ch + length)

/-- A cut that leaves at most `limit` characters before it. -/
structure Cut (emoji : EmojiFind) (limit : ℕ) (text : QString) (cut : ℕ) : Prop where
  place : ∃ s ≤ limit, Place emoji text cut s
  pos : 0 < cut
  whole : Whole emoji text cut

/-- A part is cut off, with what the entities cover of it and of the rest. -/
structure CutRight (emoji : EmojiFind) (limit : ℕ) (text sending left : TextWithEntities) :
    Prop where
  cut : ∃ cut, Cut emoji limit text.text cut ∧
    sending = frontPart cut text ∧ left = backPart cut text

/-- Strictly inside an entity that cannot be split. -/
def InUnbreakable (entities : List EntityInText) (ch : ℕ) : Prop :=
  ∃ entity ∈ entities, entity.offset < ch ∧ ch < entity.stop ∧ ¬ Breakable entity

/-- The text fits; or some place the cut may come to is not inside an entity that cannot be
split; or no entity starts at the last of these places or behind it. -/
def CutMeets (emoji : EmojiFind) (limit : ℕ) (text : TextWithEntities) : Prop :=
  (∃ s, Place emoji text.text text.text.length s ∧ s ≤ limit) ∨
  (∃ ch s, Place emoji text.text ch s ∧ ch < text.text.length ∧ limit / 2 < s ∧ s ≤ limit ∧
    ¬ InUnbreakable text.entities ch) ∨
  ∀ ch s, Place emoji text.text ch s → ch < text.text.length → s ≤ limit →
    limit < s + (advance emoji (text.text.drop ch)).2 →
      ∀ entity ∈ text.entities, entity.offset < ch

/-- The calls of `CutPart` until it returns false; `none` says that there are more. -/
def cutParts (q : Tables) (emoji : EmojiFind) (limit : ℕ) :
    ℕ → TextWithEntities → Option (List TextWithEntities)
  | 0, _ => none
  | fuel + 1, left =>
    match CutPart q emoji limit left with
    | none => some []
    | some (sending, left) => (cutParts q emoji limit fuel left).map fun parts => sending :: parts

/-- What is left after some calls. -/
inductive CutReached (q : Tables) (emoji : EmojiFind) (limit : ℕ) (text : TextWithEntities) :
    TextWithEntities → Prop
  | start : CutReached q emoji limit text text
  | next {left sending rest : TextWithEntities} : CutReached q emoji limit text left →
      CutPart q emoji limit left = some (sending, rest) → CutReached q emoji limit text rest

/-- What is left behind the cuts up to `start`. -/
def restOf (start : ℕ) (text : TextWithEntities) : TextWithEntities :=
  if start = 0 then text else backPart start text

/-- The text from `start` on in parts, each up to the next cut. -/
def Parts (emoji : EmojiFind) (limit : ℕ) (text : TextWithEntities) :
    ℕ → List TextWithEntities → Prop
  | start, [] => (restOf start text).text = []
  | start, part :: parts => ∃ cut, Cut emoji limit (restOf start text).text cut ∧
      part = frontPart cut (restOf start text) ∧ Parts emoji limit text (start + cut) parts

end Bettergram.Ui.Text

/-! ## Places for a cut

The loop comes to the places of a text one after the other; each is behind what
stands at the one before it, with its characters counted.
-/

namespace Bettergram.Ui.Text

variable {emoji : EmojiFind} {text : QString}

/-! ## Characters -/

theorem codePoints_pos {text : QString} (h : text ≠ []) : 0 < codePoints text := by
  cases text with
  | nil => exact absurd rfl h
  | cons first rest =>
    cases rest with
    | nil => exact Nat.one_pos
    | cons second rest =>
      rw [codePoints]
      split_ifs <;> omega

theorem codePoints_le (text : QString) : codePoints text ≤ text.length := by
  induction text using codePoints.induct with
  | case1 => exact le_rfl
  | case2 => exact le_rfl
  | case3 first second rest hpair ih =>
    rw [codePoints, if_pos hpair, List.length_cons, List.length_cons]
    omega
  | case4 first second rest hpair ih =>
    rw [codePoints, if_neg hpair, List.length_cons]
    omega

theorem advance_pos (emoji : EmojiFind) (rest : QString) : 0 < (advance emoji rest).1 := by
  rw [advance]
  split
  · rename_i length hfind
    exact emoji.pos rest length hfind
  · split_ifs <;> decide

theorem advance_count_pos (emoji : EmojiFind) {rest : QString} (h : rest ≠ []) :
    0 < (advance emoji rest).2 := by
  rw [advance]
  split
  · rename_i length hfind
    refine codePoints_pos ?_
    rw [Ne, List.take_eq_nil_iff, not_or]
    exact ⟨(emoji.pos rest length hfind).ne', h⟩
  · split_ifs <;> decide

theorem advance_le (emoji : EmojiFind) {rest : QString} (h : rest ≠ []) :
    (advance emoji rest).1 ≤ rest.length := by
  have hpos := List.length_pos_iff.mpr h
  rw [advance]
  split
  · rename_i length hfind
    exact emoji.le rest length hfind
  · split_ifs with hpair
    · simp only [Bool.and_eq_true, decide_eq_true_eq] at hpair
      omega
    · exact hpos

/-- What stands at a place counts for no more than half the limit, or for one. -/
theorem advance_count_le {limit : ℕ}
    (hemoji : ∀ rest length, emoji.find rest = some length → 2 * length ≤ limit)
    (rest : QString) : 2 * (advance emoji rest).2 ≤ limit ∨ (advance emoji rest).2 = 1 := by
  rw [advance]
  split
  · rename_i length hfind
    have hlimit := hemoji rest length hfind
    have hcount := codePoints_le (rest.take length)
    have := List.length_take_le length rest
    exact .inl (by simp only; omega)
  · split_ifs
    · exact .inr rfl
    · exact .inr rfl

/-! ## Places -/

/-- The place after so many rounds. -/
def placeAt (emoji : EmojiFind) (text : QString) : ℕ → ℕ × ℕ
  | 0 => (0, 0)
  | round + 1 =>
    let place := placeAt emoji text round
    if place.1 < text.length then
      let next := advance emoji (text.drop place.1)
      (place.1 + next.1, place.2 + next.2)
    else place

theorem Place.exists_round {ch s : ℕ} (h : Place emoji text ch s) :
    ∃ round, placeAt emoji text round = (ch, s) := by
  induction h with
  | start => exact ⟨0, rfl⟩
  | next _ hlt ih =>
    obtain ⟨round, hround⟩ := ih
    refine ⟨round + 1, ?_⟩
    rw [placeAt, hround, if_pos hlt]

theorem placeAt_place (emoji : EmojiFind) (text : QString) (round : ℕ) :
    Place emoji text (placeAt emoji text round).1 (placeAt emoji text round).2 := by
  induction round with
  | zero => exact Place.start
  | succ round ih =>
    rw [placeAt]
    split_ifs with hlt
    · exact ih.next hlt
    · exact ih

/-- A later round is behind what stands at the place of an earlier one. -/
theorem placeAt_lt (emoji : EmojiFind) (text : QString) {round later : ℕ} (h : round < later)
    (hlt : (placeAt emoji text round).1 < text.length) :
    (placeAt emoji text round).1 + (advance emoji (text.drop (placeAt emoji text round).1)).1 ≤
        (placeAt emoji text later).1 ∧
      (placeAt emoji text round).2 + (advance emoji (text.drop (placeAt emoji text round).1)).2 ≤
        (placeAt emoji text later).2 := by
  induction later, h using Nat.le_induction with
  | base =>
    rw [placeAt, if_pos hlt]
    exact ⟨le_rfl, le_rfl⟩
  | succ later _ ih =>
    rw [placeAt]
    split_ifs
    · simp only
      omega
    · exact ih

/-- Of two places one is behind what stands at the other, or they are the same. -/
theorem Place.compare {ch s ch' s' : ℕ} (h : Place emoji text ch s) (h' : Place emoji text ch' s')
    (hlt : ch < text.length) :
    (ch' < ch ∧ s' ≤ s) ∨ (ch' = ch ∧ s' = s) ∨
      (ch + (advance emoji (text.drop ch)).1 ≤ ch' ∧
        s + (advance emoji (text.drop ch)).2 ≤ s') := by
  obtain ⟨round, hround⟩ := h.exists_round
  obtain ⟨round', hround'⟩ := h'.exists_round
  obtain hbefore | rfl | hbehind := lt_trichotomy round' round
  · by_cases hlt' : ch' < text.length
    · have hle := placeAt_lt emoji text hbefore (by rw [hround']; exact hlt')
      rw [hround, hround'] at hle
      have := advance_pos emoji (text.drop ch')
      exact .inl ⟨by simp only at hle; omega, by simp only at hle; omega⟩
    · -- the loop does not go on from the end
      have hsame : ∀ k, placeAt emoji text (round' + k) = (ch', s') := by
        intro k
        induction k with
        | zero => exact hround'
        | succ k ih => rw [← Nat.add_assoc, placeAt, ih, if_neg hlt']
      have := hsame (round - round')
      rw [Nat.add_sub_cancel' hbefore.le, hround, Prod.mk.injEq] at this
      omega
  · rw [hround, Prod.mk.injEq] at hround'
    exact .inr (.inl ⟨hround'.1.symm, hround'.2.symm⟩)
  · have hle := placeAt_lt emoji text hbehind (by rw [hround]; exact hlt)
    rw [hround, hround'] at hle
    exact .inr (.inr hle)

/-- A place has one number of characters before it. -/
theorem Place.unique {ch s s' : ℕ} (h : Place emoji text ch s) (h' : Place emoji text ch s')
    (hlt : ch < text.length) : s = s' := by
  have := advance_pos emoji (text.drop ch)
  have := h.compare h' hlt
  omega

theorem Place.eq_zero_or_pos {ch s : ℕ} (h : Place emoji text ch s) :
    (ch = 0 ∧ s = 0) ∨ 0 < ch := by
  cases h with
  | start => exact .inl ⟨rfl, rfl⟩
  | @next ch s _ _ =>
    have := advance_pos emoji (text.drop ch)
    exact .inr (by omega)

theorem Place.le_length {ch s : ℕ} (h : Place emoji text ch s) : ch ≤ text.length := by
  induction h with
  | start => exact Nat.zero_le _
  | @next ch s _ hlt ih =>
    have hne : text.drop ch ≠ [] := by
      rw [Ne, List.drop_eq_nil_iff]
      omega
    have := advance_le emoji hne
    rw [List.length_drop] at this
    omega

theorem charAt_drop (text : QString) (n k : ℕ) : charAt (text.drop n) k = charAt text (n + k) := by
  rw [charAt, charAt, List.getD_eq_getElem?_getD, List.getD_eq_getElem?_getD, List.getElem?_drop]

theorem not_high_of_low {ch : QChar} (h : isLowSurrogate ch = true) :
    ¬ isHighSurrogate ch = true := by
  simp only [isLowSurrogate, isHighSurrogate, Bool.and_eq_true, decide_eq_true_eq] at h ⊢
  exact fun hhigh => absurd (hhigh.2.trans_le h.1) (lt_irrefl ch)

/-- What stands at a place does not end within a surrogate pair. -/
theorem advance_whole (emoji : EmojiFind) (rest : QString) :
    ¬ (isHighSurrogate (charAt rest ((advance emoji rest).1 - 1)) = true ∧
      isLowSurrogate (charAt rest (advance emoji rest).1) = true) := by
  rw [advance]
  split
  · rename_i length hfind
    exact emoji.whole rest length hfind
  · split_ifs with hpair
    · simp only [Bool.and_eq_true] at hpair
      exact fun h => not_high_of_low hpair.2 h.1
    · rintro ⟨hhigh, hlow⟩
      have hlength : 1 < rest.length := by
        by_contra hle
        rw [charAt, List.getD_eq_getElem?_getD, List.getElem?_eq_none (by omega)] at hlow
        exact absurd hlow (by decide)
      refine hpair ?_
      simp only [Bool.and_eq_true, decide_eq_true_eq]
      exact ⟨⟨hhigh, hlength⟩, hlow⟩

/-- No place is within a surrogate pair. -/
theorem Place.not_in_pair {ch s : ℕ} (h : Place emoji text ch s) (hpos : 0 < ch) :
    ¬ (isHighSurrogate (charAt text (ch - 1)) = true ∧
      isLowSurrogate (charAt text ch) = true) := by
  cases h with
  | start => exact absurd hpos (lt_irrefl 0)
  | @next ch s _ _ =>
    have hwhole := advance_whole emoji (text.drop ch)
    have hnext := advance_pos emoji (text.drop ch)
    rwa [charAt_drop, charAt_drop, ← Nat.add_sub_assoc hnext] at hwhole

/-- No place is within an emoji. -/
theorem Place.not_in_emoji {ch s ch' s' length : ℕ} (h : Place emoji text ch s)
    (h' : Place emoji text ch' s') (hfind : emoji.find (text.drop ch) = some length) :
    ¬ (ch < ch' ∧ ch' < ch + length) := by
  have hlt : ch < text.length := by
    have hpos := emoji.pos _ _ hfind
    have hle := emoji.le _ _ hfind
    rw [List.length_drop] at hle
    omega
  have hadvance : (advance emoji (text.drop ch)).1 = length := by
    rw [advance, hfind]
  have := h.compare h' hlt
  omega

theorem Place.cut {limit ch s : ℕ} (h : Place emoji text ch s) (hs : s ≤ limit) (hpos : 0 < ch) :
    Cut emoji limit text ch :=
  ⟨⟨s, hs, h⟩, hpos, h.not_in_pair hpos, fun _ _ _ hplace hfind => hplace.not_in_emoji h hfind⟩

end Bettergram.Ui.Text
