import Bettergram.Ui.Text.RichEntities
import Mathlib.Algebra.Order.Group.Int
import Mathlib.Data.List.Forall2

/-! # Replacing a tag of a language string

The first tag that is not inside another command is replaced by a text. The
entities around it are moved, and those of the replacement are put between them.
-/

namespace Bettergram.Lang
open Ui.Text Foundation

def kTagReplacementSize : ℕ := 4

/-! ## The place of the tag -/

section Position

variable (original : QString) (tag : UInt16)

/-- One step of the search, with `none` for -1. -/
def findTurn (ch : ℕ) : Turn ℕ (Except Rich.Fault (Option ℕ)) :=
  if ch = original.length then .done (.ok none)
  else if charAt original ch = TextCommand then
    if ch + kTagReplacementSize ≤ original.length ∧
        charAt original (ch + 1) = TextCommandLangTag ∧ charAt original (ch + 3) = TextCommand then
      if charAt original (ch + 2) = 0x0020 + tag.toNat then .done (.ok (some ch))
      else .next (ch + kTagReplacementSize)
    else
      match Rich.textSkipCommand original ch original.length true with
      | .error fault => .done (.error fault)
      | .ok next => .next (if next = ch then ch + 1 else next)
  else .next (ch + 1)

def FindTagReplacementPosition : Except Rich.Fault (Option ℕ) :=
  (loop (findTurn original tag) (original.length + 1) 0).getD (.error .rounds)

end Position

namespace ReplaceTag

def Replace (original replacement : QString) (replacementPosition : ℕ) : QString :=
  (if 0 < replacementPosition then mid original 0 replacementPosition else []) ++ replacement ++
    if replacementPosition + kTagReplacementSize < original.length then
      original.drop (replacementPosition + kTagReplacementSize)
    else []

/-! ## The entities -/

def snap (value lower upper : ℤ) : ℤ :=
  if value < lower then lower else if upper < value then upper else value

/-- An entity is only added when it has a length. -/
def pushed (entity : EntityInText) : List EntityInText :=
  if entity.length ≠ 0 then [entity] else []

section Entities

-- the place and the size of the replacement, and the size of the result
variable (replacementPosition size resultSize : ℤ)

def placed (entity : EntityInText) : EntityInText :=
  let replacementEnd := replacementPosition + size
  let newOffset := replacementPosition + entity.offset
  let newEnd := newOffset + entity.length
  let newOffset := snap newOffset replacementPosition replacementEnd
  let newEnd := snap newEnd replacementPosition replacementEnd
  { entity with offset := newOffset, length := newEnd - newOffset }

/-- What is added, and the replacement's entities that are left. -/
def addReplacementEntitiesUntil (untilPosition : ℤ) :
    List EntityInText → List EntityInText × List EntityInText
  | [] => ([], [])
  | entity :: rest =>
    if untilPosition ≤ replacementPosition + entity.offset then ([], entity :: rest)
    else
      let (added, left) := addReplacementEntitiesUntil untilPosition rest
      (pushed (placed replacementPosition size entity) ++ added, left)

def transformed (entity : EntityInText) : EntityInText :=
  let offset := entity.offset
  let stop := offset + entity.length
  let offset := if replacementPosition < offset then offset + size - kTagReplacementSize else offset
  let stop := if replacementPosition < stop then stop + size - kTagReplacementSize else stop
  let offset := snap offset 0 resultSize
  let stop := snap stop 0 resultSize
  { entity with offset, length := stop - offset }

/-- The walk over the entities of the original, with those of the replacement that are left. -/
def addEntities : List EntityInText → List EntityInText → List EntityInText
  | [], left => (addReplacementEntitiesUntil replacementPosition size resultSize left).1
  | entity :: rest, left =>
    let entity := transformed replacementPosition size resultSize entity
    let (added, left) :=
      addReplacementEntitiesUntil replacementPosition size entity.offset left
    added ++ (pushed entity ++ addEntities rest left)

end Entities

def Call (original : TextWithEntities) (tag : UInt16) (replacement : TextWithEntities) :
    Except Rich.Fault TextWithEntities := do
  match ← FindTagReplacementPosition original.text tag with
  | none => return original
  | some replacementPosition =>
    let text := Replace original.text replacement.text replacementPosition
    return { text
             entities :=
               if original.entities.length ≠ 0 ∨ replacement.entities.length ≠ 0 then
                 addEntities replacementPosition replacement.text.length text.length
                   original.entities replacement.entities
               else [] }

end ReplaceTag

/-! ## The search -/

section Position

variable {original : QString} {tag : UInt16}

/-- A whole tag. -/
structure TagAt (original : QString) (tag : UInt16) (place : ℕ) : Prop where
  inside : place + kTagReplacementSize ≤ original.length
  first : charAt original place = TextCommand
  command : charAt original (place + 1) = TextCommandLangTag
  value : charAt original (place + 2) = 0x0020 + tag.toNat
  last : charAt original (place + 3) = TextCommand

/-- The search comes to the place. -/
def Comes (original : QString) (tag : UInt16) : ℕ → ℕ → Prop := Reached (findTurn original tag)

/-- The tag that the search comes to. -/
def Found (original : QString) (tag : UInt16) (start : ℕ) : Option ℕ → Prop
  | some place => Comes original tag start place ∧ TagAt original tag place
  | none => ∀ place, Comes original tag start place → ¬TagAt original tag place

theorem findTurn_done {ch : ℕ} {result : Except Rich.Fault (Option ℕ)}
    (hle : ch ≤ original.length) (h : findTurn original tag ch = .done result) :
    result = .ok none ∧ ch = original.length ∨ result = .ok (some ch) ∧ TagAt original tag ch := by
  rw [findTurn] at h
  split_ifs at h with hend hcommand htag hvalue
  · cases h
    exact .inl ⟨rfl, hend⟩
  · cases h
    exact .inr ⟨rfl, htag.1, hcommand, htag.2.1, hvalue, htag.2.2⟩
  · obtain ⟨next, hskip, -⟩ := Rich.textSkipCommand_returns true hle le_rfl
    rw [hskip] at h
    cases h

theorem findTurn_next {ch next : ℕ} (hle : ch ≤ original.length)
    (h : findTurn original tag ch = .next next) :
    ch < next ∧ next ≤ original.length ∧ ¬TagAt original tag ch := by
  rw [findTurn] at h
  split_ifs at h with hend hcommand htag hvalue
  · cases h
    exact ⟨by rw [kTagReplacementSize]; omega, htag.1, fun hat => hvalue hat.value⟩
  · obtain ⟨skipped, hskip, hbounds⟩ := Rich.textSkipCommand_returns true hle le_rfl
    rw [hskip] at h
    cases h
    refine ⟨?_, ?_, fun hat => htag ⟨hat.inside, hat.command, hat.last⟩⟩
    all_goals split_ifs <;> omega
  · cases h
    exact ⟨by omega, by omega, fun hat => hcommand hat.first⟩

theorem loop_found {rounds ch : ℕ} (hle : ch ≤ original.length)
    (hrounds : original.length < rounds + ch) :
    ∃ place, loop (findTurn original tag) rounds ch = some (.ok place) ∧
      Found original tag ch place := by
  induction rounds generalizing ch with
  | zero => omega
  | succ rounds ih =>
    cases hturn : findTurn original tag ch with
    | done result =>
      rw [loop_done hturn]
      obtain ⟨rfl, rfl⟩ | ⟨rfl, hat⟩ := findTurn_done hle hturn
      · refine ⟨none, rfl, fun place hcomes hat => ?_⟩
        obtain rfl | ⟨next, hnext, -⟩ := Relation.ReflTransGen.cases_head hcomes
        · have hinside := hat.inside
          rw [kTagReplacementSize] at hinside
          omega
        · rw [hturn] at hnext
          cases hnext
      · exact ⟨some ch, rfl, .refl, hat⟩
    | next next =>
      obtain ⟨hlt, hnext, hnot⟩ := findTurn_next hle hturn
      obtain ⟨place, hloop, hfound⟩ := ih hnext (by omega)
      refine ⟨place, (loop_next hturn rounds).trans hloop, ?_⟩
      cases place with
      | some place => exact ⟨.head hturn hfound.1, hfound.2⟩
      | none =>
        intro place hcomes
        obtain rfl | ⟨next', hnext', hrest⟩ := Relation.ReflTransGen.cases_head hcomes
        · exact hnot
        · rw [hturn] at hnext'
          cases hnext'
          exact hfound place hrest

theorem findTagReplacementPosition_returns (original : QString) (tag : UInt16) :
    Returns (FindTagReplacementPosition original tag) (Found original tag 0) := by
  obtain ⟨place, hloop, hfound⟩ :=
    @loop_found original tag _ 0 (Nat.zero_le _) (Nat.lt_succ_self _)
  exact ⟨place, by rw [FindTagReplacementPosition, hloop]; rfl, hfound⟩

end Position

/-! ## The places of the entities -/

namespace ReplaceTag

/-- The character at the place belongs to the entity. -/
def Covers (entity : EntityInText) (place : ℕ) : Prop :=
  entity.offset ≤ place ∧ (place : ℤ) < entity.stop

/-- Where the character at a place comes to be; the characters of the tag go away. -/
def image (position size place : ℕ) : Option ℕ :=
  if place < position then some place
  else if place < position + kTagReplacementSize then none
  else some (place + size - kTagReplacementSize)

/-- The entity covers the images of what it covered, and the replacement when it covered the tag. -/
structure IsImage (text : QString) (position size : ℕ) (entity moved : EntityInText) : Prop where
  type : moved.type = entity.type
  data : moved.data = entity.data
  length : 0 ≤ moved.length
  covers : ∀ place, Covers moved place ↔
    (∃ before < text.length, Covers entity before ∧ image position size before = some place) ∨
      Covers entity position ∧ position ≤ place ∧ place < position + size

/-- The entity covers the same characters of the replacement at its place. -/
structure IsShifted (position size : ℕ) (entity shifted : EntityInText) : Prop where
  type : shifted.type = entity.type
  data : shifted.data = entity.data
  length : 0 ≤ shifted.length
  covers : ∀ place, Covers shifted place ↔
    position ≤ place ∧ place < position + size ∧ Covers entity (place - position)

/-- An entity with a place and a length. -/
def Placed (entity : EntityInText) : Prop := 0 ≤ entity.offset ∧ 0 ≤ entity.length

/-- Neither end of the entity is inside the tag. -/
def Around (position : ℕ) (entity : EntityInText) : Prop :=
  ¬(position < entity.offset ∧ entity.offset < position + kTagReplacementSize) ∧
    ¬(position < entity.stop ∧ entity.stop < position + kTagReplacementSize)

theorem snap_mono {a b lower upper : ℤ} (hbounds : lower ≤ upper) (h : a ≤ b) :
    snap a lower upper ≤ snap b lower upper := by
  rw [snap, snap]
  split_ifs <;> omega

theorem le_snap {value lower upper : ℤ} (hbounds : lower ≤ upper) :
    lower ≤ snap value lower upper := by
  rw [snap]
  split_ifs <;> omega

theorem between_snap (a b : ℤ) {lower upper place : ℤ} (hlower : lower ≤ place) :
    snap a lower upper ≤ place ∧ place < snap b lower upper ↔
      a ≤ place ∧ place < b ∧ place < upper := by
  rw [snap, snap]
  split_ifs <;> omega

theorem image_eq_some_iff {position size before place : ℕ} :
    image position size before = some place ↔
      before < position ∧ place = before ∨
        position + kTagReplacementSize ≤ before ∧ place + kTagReplacementSize = before + size := by
  have hsize : kTagReplacementSize = 4 := rfl
  rw [image]
  split_ifs with hbefore htag
  · rw [Option.some_inj]
    omega
  · exact iff_of_false (by simp) (by omega)
  · rw [Option.some_inj]
    omega

/-- An entity that is made from its two ends. -/
theorem covers_ends {entity : EntityInText} {offset stop : ℤ} {place : ℕ} :
    Covers { entity with offset, length := stop - offset } place ↔
      offset ≤ place ∧ (place : ℤ) < stop := by
  rw [Covers, EntityInText.stop]
  dsimp only
  omega

theorem transformed_isImage {text : QString} {position : ℕ} (size : ℕ) {entity : EntityInText}
    (hinside : position + kTagReplacementSize ≤ text.length) (hplaced : Placed entity)
    (haround : Around position entity) :
    IsImage text position size entity
      (transformed position size (text.length + size - kTagReplacementSize : ℕ) entity) := by
  obtain ⟨hoffset, hlength⟩ := hplaced
  obtain ⟨hstart, hstop⟩ := haround
  refine ⟨rfl, rfl, ?_, fun place => ?_⟩
  · refine Int.sub_nonneg_of_le (snap_mono (Int.natCast_nonneg _) ?_)
    simp only [EntityInText.stop, kTagReplacementSize] at *
    split_ifs <;> omega
  simp only [image_eq_some_iff]
  rw [transformed, covers_ends, between_snap _ _ (Int.natCast_nonneg place)]
  simp only [Covers, EntityInText.stop, kTagReplacementSize] at *
  constructor
  · intro hcovers
    by_cases hbefore : place < position
    · refine .inl ⟨place, ?_, ?_, .inl ⟨hbefore, rfl⟩⟩
      · omega
      · split_ifs at hcovers <;> omega
    by_cases hbehind : position + size ≤ place
    · refine .inl ⟨place + 4 - size, ?_, ?_, .inr ⟨by omega, by omega⟩⟩
      · omega
      · split_ifs at hcovers <;> omega
    · refine .inr ⟨?_, by omega⟩
      split_ifs at hcovers <;> omega
  · rintro (⟨before, hlt, hcovers, himage⟩ | ⟨hcovers, hbounds⟩)
    · split_ifs <;> omega
    · split_ifs <;> omega

theorem placed_isShifted (position size : ℕ) {entity : EntityInText} (hplaced : Placed entity) :
    IsShifted position size entity (placed position size entity) := by
  refine ⟨rfl, rfl, Int.sub_nonneg_of_le (snap_mono (by omega)
    (Int.le_add_of_nonneg_right hplaced.2)), fun place => ?_⟩
  rw [placed, covers_ends]
  by_cases hfrom : position ≤ place
  · rw [between_snap _ _ (Int.ofNat_le.mpr hfrom), Covers, EntityInText.stop]
    omega
  · refine iff_of_false ?_ fun h => hfrom h.1
    rw [snap, snap]
    split_ifs <;> omega

/-! ## The walk -/

section Walk

variable {position size resultSize lower : ℤ}

theorem flatMap_pushed (f : EntityInText → EntityInText) (entities : List EntityInText) :
    entities.flatMap (fun entity => pushed (f entity)) =
      (entities.map f).filter fun entity => entity.length ≠ 0 := by
  induction entities with
  | nil => rfl
  | cons entity entities ih =>
    rw [List.flatMap_cons, List.map_cons, List.filter_cons, ih, pushed]
    by_cases h : (f entity).length = 0 <;> simp [h]

/-- What is added and what is left are the entities of the replacement. -/
theorem addUntil_append (position size untilPosition : ℤ) (left : List EntityInText) :
    (addReplacementEntitiesUntil position size untilPosition left).1 ++
        (addReplacementEntitiesUntil position size untilPosition left).2.flatMap
          (fun entity => pushed (placed position size entity)) =
      left.flatMap fun entity => pushed (placed position size entity) := by
  induction left with
  | nil => rfl
  | cons entity left ih =>
    rw [addReplacementEntitiesUntil]
    split
    · rfl
    · rw [List.flatMap_cons, ← ih, List.append_assoc]

/-- The entities that are left begin at the place or behind it. -/
theorem addUntil_left (position size untilPosition : ℤ) {left : List EntityInText}
    (hsorted : SortedByOffset left) :
    (addReplacementEntitiesUntil position size untilPosition left).2.Sublist left ∧
      ∀ entity ∈ (addReplacementEntitiesUntil position size untilPosition left).2,
        untilPosition ≤ position + entity.offset := by
  induction left with
  | nil => exact ⟨List.Sublist.refl _, by simp [addReplacementEntitiesUntil]⟩
  | cons entity left ih =>
    obtain ⟨hfirst, hrest⟩ := List.pairwise_cons.mp hsorted
    rw [addReplacementEntitiesUntil]
    split
    · rename_i hle
      refine ⟨List.Sublist.refl _, fun other hother => ?_⟩
      obtain rfl | hother := List.mem_cons.mp hother
      · exact hle
      · have := hfirst other hother
        omega
    · obtain ⟨hsub, hbehind⟩ := ih hrest
      exact ⟨hsub.cons _, hbehind⟩

/-- An entity of the replacement that is added begins where it was put. -/
theorem offset_of_mem_pushed {entity other : EntityInText} (hplaced : Placed entity)
    (h : other ∈ pushed (placed position size entity)) :
    other.offset = position + entity.offset := by
  rw [pushed] at h
  split at h
  swap
  · exact absurd h (by simp)
  rename_i hlength
  rw [List.mem_singleton] at h
  subst h
  obtain ⟨hoffset, hpos⟩ := hplaced
  simp only [placed, snap] at hlength ⊢
  split_ifs at hlength ⊢ <;> omega

theorem addUntil_added (size untilPosition : ℤ) {left : List EntityInText}
    (hsorted : SortedByOffset left) (hplaced : ∀ entity ∈ left, Placed entity)
    (hlower : ∀ entity ∈ left, lower ≤ position + entity.offset) :
    SortedByOffset (addReplacementEntitiesUntil position size untilPosition left).1 ∧
      ∀ entity ∈ (addReplacementEntitiesUntil position size untilPosition left).1,
        lower ≤ entity.offset ∧ entity.offset < untilPosition := by
  induction left generalizing lower with
  | nil => exact ⟨List.Pairwise.nil, by simp [addReplacementEntitiesUntil]⟩
  | cons entity left ih =>
    obtain ⟨hfirst, hrest⟩ := List.pairwise_cons.mp hsorted
    have hentity := hplaced entity List.mem_cons_self
    rw [addReplacementEntitiesUntil]
    split
    · exact ⟨List.Pairwise.nil, by simp⟩
    rename_i hbefore
    have hbehind : ∀ other ∈ left, position + entity.offset ≤ position + other.offset :=
      fun other hother => Int.add_le_add_left (hfirst other hother) position
    obtain ⟨hadded, hbounds⟩ := ih hrest
      (fun other hother => hplaced other (List.mem_cons_of_mem _ hother)) hbehind
    have hhead : ∀ other ∈ pushed (placed position size entity),
        other.offset = position + entity.offset := fun other => offset_of_mem_pushed hentity
    have hentityLower := hlower entity List.mem_cons_self
    refine ⟨List.pairwise_append.mpr ⟨?_, hadded, fun a ha b hb => ?_⟩, fun other hother => ?_⟩
    · rw [pushed]
      split
      · exact List.pairwise_singleton _ _
      · exact List.Pairwise.nil
    · rw [hhead a ha]
      exact (hbounds b hb).1
    · rcases List.mem_append.mp hother with hother | hother
      · rw [hhead other hother]
        omega
      · have := hbounds other hother
        omega

/-- Every entity that has a length is there once. -/
theorem addEntities_perm (hsize : 0 ≤ size) (hresult : position + size ≤ resultSize)
    (entities : List EntityInText) {left : List EntityInText} (hsorted : SortedByOffset left)
    (hplaced : ∀ entity ∈ left, Placed entity) :
    (addEntities position size resultSize entities left).Perm
      (entities.flatMap (fun entity => pushed (transformed position size resultSize entity)) ++
        left.flatMap fun entity => pushed (placed position size entity)) := by
  induction entities generalizing left with
  | nil =>
    obtain ⟨hsub, hbehind⟩ := addUntil_left position size resultSize hsorted
    have hnone : (addReplacementEntitiesUntil position size resultSize left).2.flatMap
        (fun entity => pushed (placed position size entity)) = [] := by
      refine List.flatMap_eq_nil_iff.mpr fun entity hentity => if_neg (not_not.mpr ?_)
      have hlarge := hbehind entity hentity
      have hlength := (hplaced entity (hsub.subset hentity)).2
      simp only [placed, snap]
      split_ifs <;> omega
    rw [addEntities, ← addUntil_append position size resultSize left, hnone, List.append_nil]
    exact List.Perm.refl _
  | cons entity entities ih =>
    rw [addEntities]
    obtain ⟨hsub, -⟩ := addUntil_left position size
      (transformed position size resultSize entity).offset hsorted
    have hrest := ih (hsorted.sublist hsub) fun other hother => hplaced other (hsub.subset hother)
    rw [← addUntil_append position size (transformed position size resultSize entity).offset left,
      List.flatMap_cons]
    dsimp only
    refine ((hrest.append_left _).append_left _).trans ?_
    rw [List.append_assoc]
    exact (List.perm_append_comm_assoc _ _ _).trans
      ((List.perm_append_comm_assoc _ _ _).append_left _)

/-- The walk keeps the order. -/
theorem addEntities_sorted (position size resultSize : ℤ) {entities left : List EntityInText}
    (hentities : entities.Pairwise fun a b =>
      (transformed position size resultSize a).offset ≤
        (transformed position size resultSize b).offset)
    (hlower : ∀ entity ∈ entities, lower ≤ (transformed position size resultSize entity).offset)
    (hsorted : SortedByOffset left) (hplaced : ∀ entity ∈ left, Placed entity)
    (hleft : ∀ entity ∈ left, lower ≤ position + entity.offset) :
    SortedByOffset (addEntities position size resultSize entities left) ∧
      ∀ entity ∈ addEntities position size resultSize entities left, lower ≤ entity.offset := by
  induction entities generalizing lower left with
  | nil =>
    obtain ⟨hadded, hbounds⟩ := addUntil_added size resultSize hsorted hplaced hleft
    exact ⟨hadded, fun entity hentity => (hbounds entity hentity).1⟩
  | cons entity entities ih =>
    obtain ⟨hfirst, hrest⟩ := List.pairwise_cons.mp hentities
    obtain ⟨hsub, hbehind⟩ := addUntil_left position size
      (transformed position size resultSize entity).offset hsorted
    obtain ⟨hadded, hbounds⟩ := addUntil_added size
      (transformed position size resultSize entity).offset hsorted hplaced hleft
    obtain ⟨hwalk, hwalkLower⟩ := ih hrest hfirst (hsorted.sublist hsub)
      (fun other hother => hplaced other (hsub.subset hother)) hbehind
    have hthis : ∀ other ∈ pushed (transformed position size resultSize entity),
        other = transformed position size resultSize entity := by
      intro other hother
      rw [pushed] at hother
      split at hother
      · exact List.mem_singleton.mp hother
      · exact absurd hother (by simp)
    have hentityLower := hlower entity List.mem_cons_self
    rw [addEntities]
    dsimp only
    refine ⟨List.pairwise_append.mpr ⟨hadded, List.pairwise_append.mpr ⟨?_, hwalk, ?_⟩, ?_⟩, ?_⟩
    · rw [pushed]
      split
      · exact List.pairwise_singleton _ _
      · exact List.Pairwise.nil
    · intro a ha b hb
      rw [hthis a ha]
      exact hwalkLower b hb
    · intro a ha b hb
      have hlt := (hbounds a ha).2
      rcases List.mem_append.mp hb with hb | hb
      · rw [hthis b hb]
        exact hlt.le
      · exact hlt.le.trans (hwalkLower b hb)
    · intro other hother
      rcases List.mem_append.mp hother with hother | hother
      · exact (hbounds other hother).1
      · rcases List.mem_append.mp hother with hother | hother
        · rw [hthis other hother]
          exact hentityLower
        · exact hentityLower.trans (hwalkLower other hother)

theorem transformed_offset_le {position size : ℕ} {resultSize : ℤ} (hresult : 0 ≤ resultSize)
    {a b : EntityInText} (hle : a.offset ≤ b.offset) (haround : Around position b) :
    (transformed position size resultSize a).offset ≤
      (transformed position size resultSize b).offset := by
  refine snap_mono hresult ?_
  have hstart := haround.1
  simp only [kTagReplacementSize] at *
  split_ifs <;> omega

end Walk

/-! ## The replacement -/

/-- What a replaced text is to be. -/
structure ReplacedAt (original replacement : TextWithEntities) (position : ℕ)
    (result : TextWithEntities) : Prop where
  text : result.text = original.text.take position ++
    (replacement.text ++ original.text.drop (position + kTagReplacementSize))
  entities : ∃ moved shifted,
    List.Forall₂ (IsImage original.text position replacement.text.length)
      original.entities moved ∧
    List.Forall₂ (IsShifted position replacement.text.length) replacement.entities shifted ∧
    result.entities.Perm ((moved ++ shifted).filter fun entity => entity.length ≠ 0)
  sorted : SortedByOffset result.entities

/-- The same, with nothing to do when there is no tag. -/
def Replaced (original replacement : TextWithEntities) : Option ℕ → TextWithEntities → Prop
  | none, result => result = original
  | some position, result => ReplacedAt original replacement position result

theorem replace_eq {original : QString} {position : ℕ}
    (h : position + kTagReplacementSize ≤ original.length) (replacement : QString) :
    Replace original replacement position = original.take position ++
      (replacement ++ original.drop (position + kTagReplacementSize)) := by
  have hfront : (if 0 < position then mid original 0 position else []) =
      original.take position := by
    split
    · rfl
    · rename_i hzero
      rw [Nat.eq_zero_of_not_pos hzero, List.take_zero]
  have hback : (if position + kTagReplacementSize < original.length then
      original.drop (position + kTagReplacementSize) else []) =
        original.drop (position + kTagReplacementSize) := by
    split
    · rfl
    · rw [List.drop_of_length_le (by omega)]
  rw [Replace, hfront, hback, List.append_assoc]

theorem replacedAt (original replacement : TextWithEntities) {position : ℕ}
    (hinside : position + kTagReplacementSize ≤ original.text.length)
    (hsorted : SortedByOffset original.entities)
    (hplaced : ∀ entity ∈ original.entities, Placed entity)
    (haround : ∀ entity ∈ original.entities, Around position entity)
    (hsorted' : SortedByOffset replacement.entities)
    (hplaced' : ∀ entity ∈ replacement.entities, Placed entity) :
    ReplacedAt original replacement position
      { text := Replace original.text replacement.text position
        entities := addEntities position replacement.text.length
          (Replace original.text replacement.text position).length
            original.entities replacement.entities } := by
  have htext := replace_eq hinside replacement.text
  have hsize : (Replace original.text replacement.text position).length =
      original.text.length + replacement.text.length - kTagReplacementSize := by
    rw [htext]
    simp only [List.length_append, List.length_take, List.length_drop]
    omega
  refine ⟨htext, ?_, ?_⟩
  · refine ⟨original.entities.map (transformed position replacement.text.length
      (Replace original.text replacement.text position).length),
      replacement.entities.map (placed position replacement.text.length), ?_, ?_, ?_⟩
    · rw [List.forall₂_map_right_iff, List.forall₂_same, hsize]
      exact fun entity hentity => transformed_isImage _ hinside (hplaced entity hentity)
        (haround entity hentity)
    · rw [List.forall₂_map_right_iff, List.forall₂_same]
      exact fun entity hentity => placed_isShifted _ _ (hplaced' entity hentity)
    · rw [List.filter_append, ← flatMap_pushed, ← flatMap_pushed]
      exact addEntities_perm (Int.natCast_nonneg _) (by omega) _ hsorted' hplaced'
  · have hfrom : ∀ entity ∈ replacement.entities, 0 ≤ position + entity.offset :=
      fun entity hentity => Int.add_nonneg (Int.natCast_nonneg _) (hplaced' entity hentity).1
    refine (addEntities_sorted _ _ _ ?_ (fun entity _ => ?_) hsorted' hplaced' hfrom).1
    · refine hsorted.imp_of_mem fun _ hb hle => ?_
      exact transformed_offset_le (Int.natCast_nonneg _) hle (haround _ hb)
    · exact le_snap (Int.natCast_nonneg _)

/-- A bold text with a tag in it. -/
def tagged : TextWithEntities := ⟨[65, 16, 0x20, 0x21, 16, 66], [⟨.bold, 0, 6, []⟩]⟩

def word : TextWithEntities := ⟨[120, 121], [⟨.italic, 0, 1, []⟩]⟩

example : Call tagged 1 word =
    .ok ⟨[65, 120, 121, 66], [⟨.bold, 0, 4, []⟩, ⟨.italic, 1, 1, []⟩]⟩ := rfl

end ReplaceTag

end Bettergram.Lang
