import Bettergram.Data.Groups
import Mathlib.Data.List.Induction
import Mathlib.Algebra.Order.Ring.Int
import Mathlib.Algebra.Order.Ring.Nat

/-! # Runs of the album groups

Wherever a message is put in or moved to, it comes between the server ids below
its own and those above. Only the limit depends on more: a refresh does not look
whether the group is full.
-/

namespace Bettergram.Data.Groups

variable {μ γ : Type}

/-! ## Places -/

section Places

variable {id : μ → ℤ}

/-- The items before a place have smaller server ids, and right behind it stands a
larger one. -/
structure Place (id : μ → ℤ) (itemId : ℤ) (before after : List μ) : Prop where
  below : ∀ a ∈ before, IsServerMsgId (id a) = true → IsServerMsgId itemId = true → id a ≤ itemId
  above : ∀ b ∈ after.head?, IsServerMsgId itemId = true →
    IsServerMsgId (id b) = true ∧ itemId < id b
  local_last : IsServerMsgId itemId = false → after = []

theorem findPosition_place (id : μ → ℤ) (group : List μ) (itemId : ℤ) :
    findPositionForItem id group itemId ≤ group.length ∧
      Place id itemId (group.take (findPositionForItem id group itemId))
        (group.drop (findPositionForItem id group itemId)) := by
  unfold findPositionForItem
  split
  · rename_i hserver
    refine ⟨List.findIdx_le_length, ?_, ?_, ?_⟩
    · intro a ha hserverA _
      obtain ⟨i, hi, rfl⟩ := List.mem_iff_getElem.mp ha
      have hi' : i < group.findIdx fun already =>
          IsServerMsgId (id already) && decide (itemId < id already) := by
        rw [List.length_take] at hi
        omega
      have hnot := List.not_of_lt_findIdx hi'
      rw [List.getElem_take] at hserverA ⊢
      rw [hserverA, Bool.true_and, decide_eq_false_iff_not, not_lt] at hnot
      exact hnot
    · intro b hb _
      rw [List.head?_drop, Option.mem_def, List.getElem?_eq_some_iff] at hb
      obtain ⟨hi, rfl⟩ := hb
      have := List.findIdx_getElem (w := hi)
      simpa using this
    · intro hlocal
      rw [hserver] at hlocal
      cases hlocal
  · rename_i hlocal
    refine ⟨le_rfl, fun a _ _ hserver => absurd hserver hlocal, ?_, ?_⟩
    · rw [List.drop_length]
      simp
    · intro _
      rw [List.drop_length]

/-- An item between the smaller and the larger ids keeps the order. -/
theorem Place.ordered {before after : List μ} {item : μ} (h : Place id (id item) before after)
    (hordered : Ordered id (before ++ after))
    (hdistinct : ∀ a ∈ before, IsServerMsgId (id a) = true → id a ≠ id item) :
    Ordered id (before ++ item :: after) := by
  rw [Ordered, List.pairwise_append] at hordered ⊢
  obtain ⟨hbefore, hafter, hcross⟩ := hordered
  have hhead : ∀ b ∈ after, IsServerMsgId (id item) = true → IsServerMsgId (id b) = true →
      id item < id b := by
    intro b hb hitem hserver
    cases after with
    | nil => cases hb
    | cons first rest =>
      obtain ⟨hfirst, hlt⟩ := h.above first rfl hitem
      obtain rfl | hrest := List.mem_cons.mp hb
      · exact hlt
      · exact hlt.trans ((List.pairwise_cons.mp hafter).1 b hrest hfirst hserver)
  refine ⟨hbefore, List.pairwise_cons.mpr ⟨fun b hb h1 h2 => hhead b hb h1 h2, hafter⟩, ?_⟩
  intro a ha b hb hserverA hserverB
  obtain rfl | hb := List.mem_cons.mp hb
  · exact lt_of_le_of_ne (h.below a ha hserverA hserverB) (hdistinct a ha hserverA)
  · exact hcross a ha b hb hserverA hserverB

end Places

/-! ## Moving -/

theorem swapBefore_append (front back : List μ) (a b : μ) :
    swapBefore (front ++ a :: b :: back) (front.length + 1) = front ++ b :: a :: back := by
  have h1 : (front ++ a :: b :: back)[front.length + 1 - 1]? = some a := by simp
  have h2 : (front ++ a :: b :: back)[front.length + 1]? = some b := by simp
  rw [swapBefore, h1, h2]
  simp

/-- The loop that carries an item to the end. -/
theorem swaps_forward (front middle back : List μ) (item : μ) :
    (List.range' (front.length + 1) middle.length).foldl swapBefore
      (front ++ item :: (middle ++ back)) = front ++ middle ++ item :: back := by
  induction middle generalizing front with
  | nil => simp
  | cons first middle ih =>
    rw [List.length_cons, List.range'_succ, List.foldl_cons, List.cons_append, swapBefore_append]
    have hnext := ih (front ++ [first])
    rw [List.length_append, List.length_singleton] at hnext
    simpa using hnext

/-- The loop that carries an item to the front. -/
theorem swaps_back (front middle back : List μ) (item : μ) :
    (List.range' (front.length + 1) middle.length).reverse.foldl swapBefore
      (front ++ (middle ++ item :: back)) = front ++ item :: (middle ++ back) := by
  induction middle using List.reverseRecOn generalizing back with
  | nil => simp
  | append_singleton middle last ih =>
    rw [List.length_append, List.length_singleton, List.range'_concat, List.reverse_append,
      List.reverse_singleton, List.singleton_append, List.foldl_cons, Nat.one_mul]
    have hswap := swapBefore_append (front ++ middle) back last item
    rw [List.length_append] at hswap
    have hlist : front ++ (middle ++ [last] ++ item :: back) =
        front ++ middle ++ last :: item :: back := by
      simp
    rw [hlist, show front.length + 1 + middle.length = front.length + middle.length + 1 by omega,
      hswap, List.append_assoc, ih]
    simp


/-- A message that is in its group comes to its place. -/
theorem moveItem_spec [DecidableEq μ] (id : μ → ℤ) {items : List μ} {item : μ}
    (hmem : item ∈ items) (hserver : IsServerMsgId (id item) = true) :
    ∃ before after,
      moveItem items (items.idxOf item) (findPositionForItem id items (id item)) =
          some (before ++ item :: after) ∧
        before ++ after = items.erase item ∧ Place id (id item) before after := by
  obtain ⟨hle, hplace⟩ := findPosition_place id items (id item)
  generalize findPositionForItem id items (id item) = position at hle hplace ⊢
  obtain ⟨front, back, rfl, hfront⟩ := List.eq_append_cons_of_mem hmem
  have hcurrent : (front ++ item :: back).idxOf item = front.length := by
    rw [List.idxOf_append_of_notMem hfront, List.idxOf_cons_self, Nat.add_zero]
  have herase : (front ++ item :: back).erase item = front ++ back := by
    rw [List.erase_append_right _ hfront, List.erase_cons_head]
  rw [hcurrent, herase, moveItem]
  rw [List.length_append, List.length_cons] at hle
  obtain hlt | heq | hgt := lt_trichotomy position (front.length + 1)
  · have hne : position ≠ front.length := by
      -- the item itself is never what stands behind its place
      rintro rfl
      rw [List.drop_left] at hplace
      exact lt_irrefl _ (hplace.above item rfl hserver).2
    have hbefore : position < front.length := by omega
    obtain ⟨start, middle, rfl, rfl⟩ : ∃ start middle, front = start ++ middle ∧
        start.length = position :=
      ⟨_, _, (List.take_append_drop position front).symm, List.length_take_of_le hbefore.le⟩
    rw [List.append_assoc, List.take_left, List.drop_left] at hplace
    rw [if_neg (by omega), if_neg (by omega), if_pos hbefore, List.length_append,
      Nat.add_sub_cancel_left, List.append_assoc, swaps_back]
    refine ⟨start, middle ++ back, rfl, (List.append_assoc _ _ _).symm, hplace.below, ?_, ?_⟩
    · intro b hb
      refine hplace.above b ?_
      cases middle with
      | nil => simp at hbefore
      | cons first middle => exact hb
    · intro hlocal
      rw [hserver] at hlocal
      cases hlocal
  · rw [if_pos heq]
    have hsplit : front ++ item :: back = (front ++ [item]) ++ back := by simp
    have hlength : position = (front ++ [item]).length := by rw [heq, List.length_append]; rfl
    rw [hsplit, hlength, List.take_left, List.drop_left] at hplace
    exact ⟨front, back, rfl, rfl,
      fun a ha => hplace.below a (List.mem_append_left _ ha), hplace.above, hplace.local_last⟩
  · obtain ⟨middle, rest, rfl, hmiddle⟩ : ∃ middle rest, back = middle ++ rest ∧
        middle.length = position - (front.length + 1) :=
      ⟨_, _, (List.take_append_drop (position - (front.length + 1)) back).symm,
        List.length_take_of_le (by omega)⟩
    have hsplit : front ++ item :: (middle ++ rest) = (front ++ item :: middle) ++ rest := by simp
    have hlength : position = (front ++ item :: middle).length := by
      rw [List.length_append, List.length_cons]
      omega
    rw [if_neg (by omega), if_pos hgt, ← hmiddle, swaps_forward]
    rw [hsplit, hlength, List.take_left, List.drop_left] at hplace
    refine ⟨front ++ middle, rest, rfl, List.append_assoc _ _ _, ?_, hplace.above,
      hplace.local_last⟩
    intro a ha
    refine hplace.below a ?_
    simp only [List.mem_append, List.mem_cons] at ha ⊢
    tauto


/-! ## What every step keeps -/

/-- What holds in every run while the message `moving` may stand at a wrong place. -/
structure SoundApart (s : State μ γ) (moving : μ → Prop) : Prop where
  member : ∀ groupId items, s.groups groupId = some items → ∀ a ∈ items,
    (s.item a).groupId = some groupId
  nonempty : ∀ groupId items, s.groups groupId = some items → items ≠ []
  nodup : ∀ groupId items, s.groups groupId = some items → items.Nodup
  ordered : ∀ groupId items, s.groups groupId = some items →
    ∀ kept, kept.Sublist items → (∀ a ∈ kept, ¬ moving a) → Ordered s.id kept
  distinct : ∀ a b, IsServerMsgId (s.id a) = true → s.id a = s.id b → a = b

def Sound (s : State μ γ) : Prop := SoundApart s fun _ => False

def Limited (s : State μ γ) : Prop :=
  ∀ groupId items, s.groups groupId = some items → items.length ≤ kMaxItemsInGroup

theorem Sound.valid_iff {s : State μ γ} (h : Sound s) : Valid s ↔ Limited s := by
  refine ⟨fun hvalid => hvalid.limit, fun hlimit => ⟨h.nodup, hlimit, ?_, ?_⟩⟩
  · intro groupId items hgroup
    exact h.ordered groupId items hgroup items (List.Sublist.refl _) fun _ _ => not_false
  · intro groupId items hgroup wide narrow
    exact Ui.groupedMedia_true (h.nonempty groupId items hgroup) wide narrow

theorem Fresh.sound {s : State μ γ} (h : Fresh s) : Sound s where
  member groupId items hgroup := by rw [h.groups] at hgroup; cases hgroup
  nonempty groupId items hgroup := by rw [h.groups] at hgroup; cases hgroup
  nodup groupId items hgroup := by rw [h.groups] at hgroup; cases hgroup
  ordered groupId items hgroup := by rw [h.groups] at hgroup; cases hgroup
  distinct := h.distinct

theorem Fresh.limited {s : State μ γ} (h : Fresh s) : Limited s := by
  intro groupId items hgroup
  rw [h.groups] at hgroup
  cases hgroup

theorem Sound.apart {s : State μ γ} (h : Sound s) (moving : μ → Prop) : SoundApart s moving where
  member := h.member
  nonempty := h.nonempty
  nodup := h.nodup
  ordered groupId items hgroup kept hkept _ :=
    h.ordered groupId items hgroup kept hkept fun _ _ => not_false
  distinct := h.distinct

theorem insertAt_length (items : List μ) (position : ℕ) (item : μ) :
    (insertAt items position item).length = items.length + 1 := by
  have hperm : (insertAt items position item).Perm
      (item :: (items.take position ++ items.drop position)) := List.perm_middle
  rw [List.take_append_drop] at hperm
  exact hperm.length_eq

/-- A message that is in no group disturbs none. -/
theorem SoundApart.sound {s : State μ γ} {item : μ} (h : SoundApart s fun a => a = item)
    (hnot : ∀ groupId items, s.groups groupId = some items → item ∉ items) : Sound s := by
  refine ⟨h.member, h.nonempty, h.nodup, ?_, h.distinct⟩
  intro groupId items hgroup kept hkept _
  exact h.ordered groupId items hgroup kept hkept fun a ha heq =>
    hnot groupId items hgroup (heq ▸ hkept.subset ha)

theorem SoundApart.not_mem {s : State μ γ} {moving : μ → Prop} (h : SoundApart s moving) {item : μ}
    {groupId : γ} (hitem : (s.item item).groupId = some groupId)
    (hnot : ∀ items, s.groups groupId = some items → item ∉ items) :
    ∀ other items, s.groups other = some items → item ∉ items := by
  intro other items hgroup hin
  have := h.member other items hgroup item hin
  rw [hitem, Option.some.injEq] at this
  subst this
  exact hnot items hgroup hin

theorem groupId_of_grouped {s : State μ γ} {item : μ} {groupId : γ}
    (h : s.grouped item = some groupId) : (s.item item).groupId = some groupId := by
  rw [State.grouped] at h
  split_ifs at h
  exact h

theorem roomFor_iff {s : State μ γ} {item : μ} {groupId : γ}
    (hgrouped : s.grouped item = some groupId) :
    RoomFor s item ↔
      ∀ items, s.groups groupId = some items → item ∉ items → items.length < kMaxItemsInGroup := by
  refine ⟨fun h items => h groupId items hgrouped, fun h other items hother => ?_⟩
  rw [hgrouped, Option.some.injEq] at hother
  exact hother ▸ h items

section Steps

variable [DecidableEq γ]

theorem put_groups (s : State μ γ) (groupId other : γ) (items : Option (List μ)) :
    (s.put groupId items).groups other = if other = groupId then items else s.groups other :=
  Function.update_apply _ _ _ _

theorem limited_put {s : State μ γ} (hlimit : Limited s) {groupId : γ} {new : Option (List μ)} :
    Limited (s.put groupId new) ↔ ∀ items ∈ new, items.length ≤ kMaxItemsInGroup := by
  constructor
  · intro h items hitems
    exact h groupId items (by rw [put_groups, if_pos rfl]; exact hitems)
  · intro h other items hgroup
    rw [put_groups] at hgroup
    split_ifs at hgroup
    · exact h items hgroup
    · exact hlimit other items hgroup

/-- The message `item` leaves its group or comes to its place in it, and everything is in
order again. -/
theorem put_sound {s : State μ γ} {item : μ} (h : SoundApart s fun a => a = item) {groupId : γ}
    {new : Option (List μ)} (hitem : (s.item item).groupId = some groupId)
    (hnew : ∀ items ∈ new, (∀ a ∈ items, (s.item a).groupId = some groupId) ∧ items ≠ [] ∧
      items.Nodup ∧ Ordered s.id items) : Sound (s.put groupId new) where
  member other items hgroup := by
    rw [put_groups] at hgroup
    split_ifs at hgroup with heq
    · rw [heq]
      exact (hnew items hgroup).1
    · exact h.member other items hgroup
  nonempty other items hgroup := by
    rw [put_groups] at hgroup
    split_ifs at hgroup
    · exact (hnew items hgroup).2.1
    · exact h.nonempty other items hgroup
  nodup other items hgroup := by
    rw [put_groups] at hgroup
    split_ifs at hgroup
    · exact (hnew items hgroup).2.2.1
    · exact h.nodup other items hgroup
  ordered other items hgroup kept hkept _ := by
    rw [put_groups] at hgroup
    split_ifs at hgroup with hne
    · exact (hnew items hgroup).2.2.2.sublist hkept
    · refine h.ordered other items hgroup kept hkept fun a ha heq => hne ?_
      have := h.member other items hgroup a (hkept.subset ha)
      rw [heq, hitem, Option.some.injEq] at this
      exact this.symm
  distinct := h.distinct

/-- A group into which `item` is put. -/
theorem insertAt_sound {s : State μ γ} {item : μ} (h : SoundApart s fun a => a = item) {groupId : γ}
    (hitem : (s.item item).groupId = some groupId) {items : List μ}
    (hgroup : (s.groups groupId).getD [] = items) (hnot : item ∉ items) :
    Sound (s.put groupId
      (some (insertAt items (findPositionForItem s.id items (s.id item)) item))) := by
  obtain ⟨hle, hplace⟩ := findPosition_place s.id items (s.id item)
  generalize findPositionForItem s.id items (s.id item) = position at hle hplace ⊢
  have hitems : (∀ a ∈ items, (s.item a).groupId = some groupId) ∧ items.Nodup ∧
      Ordered s.id items := by
    cases hold : s.groups groupId with
    | none =>
      rw [hold, Option.getD_none] at hgroup
      subst hgroup
      exact ⟨by simp, List.nodup_nil, List.Pairwise.nil⟩
    | some old =>
      rw [hold, Option.getD_some] at hgroup
      subst hgroup
      exact ⟨h.member groupId old hold, h.nodup groupId old hold,
        h.ordered groupId old hold old (List.Sublist.refl _) fun a ha heq => hnot (heq ▸ ha)⟩
  obtain ⟨hmember, hnodup, hordered⟩ := hitems
  have hperm : (insertAt items position item).Perm (item :: items) := by
    have hmiddle : (insertAt items position item).Perm
        (item :: (items.take position ++ items.drop position)) := List.perm_middle
    rwa [List.take_append_drop] at hmiddle
  refine put_sound h hitem fun new hnew => ?_
  obtain rfl : insertAt items position item = new := by simpa using hnew
  refine ⟨?_, ?_, ?_, ?_⟩
  · intro a ha
    obtain rfl | ha := List.mem_cons.mp (hperm.mem_iff.mp ha)
    · exact hitem
    · exact hmember a ha
  · intro hnil
    rw [hnil] at hperm
    exact absurd hperm.symm.eq_nil (List.cons_ne_nil _ _)
  · exact hperm.nodup_iff.mpr (List.nodup_cons.mpr ⟨hnot, hnodup⟩)
  · refine hplace.ordered (by rwa [List.take_append_drop]) fun a ha hserver heq => hnot ?_
    rw [← h.distinct a item hserver heq]
    exact List.mem_of_mem_take ha

/-- A group in which `item` is moved. -/
theorem moveItem_sound [DecidableEq μ] {s : State μ γ} {item : μ}
    (h : SoundApart s fun a => a = item) {groupId : γ} {items : List μ}
    (hgroup : s.groups groupId = some items) (hmem : item ∈ items) (hserver : IsServerMsgId (s.id item) = true) :
    ∃ moved, moveItem items (items.idxOf item) (findPositionForItem s.id items (s.id item)) =
        some moved ∧ moved.length = items.length ∧ Sound (s.put groupId (some moved)) := by
  obtain ⟨front, back, hmove, herase, hplace⟩ := moveItem_spec s.id hmem hserver
  have hnodup := h.nodup groupId items hgroup
  have hperm : (front ++ item :: back).Perm items := by
    refine List.perm_middle.trans ?_
    rw [herase]
    exact (List.perm_cons_erase hmem).symm
  have hnot : item ∉ front ++ back := herase ▸ hnodup.not_mem_erase
  refine ⟨_, hmove, hperm.length_eq, put_sound h (h.member groupId items hgroup item hmem) ?_⟩
  intro new hnew
  obtain rfl : front ++ item :: back = new := by simpa using hnew
  refine ⟨fun a ha => h.member groupId items hgroup a (hperm.mem_iff.mp ha), by simp,
    hperm.nodup_iff.mpr hnodup, ?_⟩
  refine hplace.ordered ?_ fun a ha hserver heq => hnot ?_
  · rw [herase]
    exact h.ordered groupId items hgroup _ List.erase_sublist fun a ha heq =>
      hnodup.not_mem_erase (heq ▸ ha)
  · rw [← h.distinct a item hserver heq]
    exact List.mem_append_left _ ha

/-! ## The operations -/

theorem registerMessage_sound {s : State μ γ} {item : μ} (h : SoundApart s fun a => a = item)
    (hnew : ∀ groupId items, s.groups groupId = some items → item ∉ items) :
    Sound (s.registerMessage item) ∧ (Limited s → Limited (s.registerMessage item)) := by
  unfold State.registerMessage
  cases hgrouped : s.grouped item with
  | none => exact ⟨h.sound hnew, id⟩
  | some groupId =>
    simp only
    split_ifs with hroom
    · refine ⟨insertAt_sound h (groupId_of_grouped hgrouped) rfl fun hin => ?_, fun hlimit => ?_⟩
      · cases hold : s.groups groupId with
        | none => simp [hold] at hin
        | some old =>
          rw [hold, Option.getD_some] at hin
          exact hnew groupId old hold hin
      · rw [limited_put hlimit]
        intro items hitems
        obtain rfl := Option.some.inj hitems
        rw [insertAt_length]
        exact hroom
    · exact ⟨h.sound hnew, id⟩

variable [DecidableEq μ]

theorem unregisterMessage_sound {s : State μ γ} {item : μ} (h : SoundApart s fun a => a = item) :
    Sound (s.unregisterMessage item) ∧ (Limited s → Limited (s.unregisterMessage item)) := by
  unfold State.unregisterMessage
  cases hitem : (s.item item).groupId with
  | none =>
    refine ⟨h.sound fun groupId items hgroup hin => ?_, id⟩
    have := h.member groupId items hgroup item hin
    rw [hitem] at this
    cases this
  | some groupId =>
    cases hgroup : s.groups groupId with
    | none =>
      simp only [hgroup]
      exact ⟨h.sound (h.not_mem hitem (by simp [hgroup])), id⟩
    | some items =>
      have hleft : (items.filter fun other => decide (other ≠ item)).Sublist items :=
        List.filter_sublist
      simp only [hgroup]
      split_ifs with hin hnil
      · exact ⟨put_sound h hitem (by simp), fun hlimit => (limited_put hlimit).mpr (by simp)⟩
      · refine ⟨put_sound h hitem fun new hnew => ?_, fun hlimit => ?_⟩
        · obtain rfl := Option.some.inj hnew
          refine ⟨fun a ha => h.member groupId items hgroup a (hleft.subset ha), hnil,
            (h.nodup groupId items hgroup).sublist hleft, ?_⟩
          exact h.ordered groupId items hgroup _ hleft fun a ha heq => by
            simpa [heq] using List.of_mem_filter ha
        · rw [limited_put hlimit]
          intro new hnew
          obtain rfl := Option.some.inj hnew
          exact hleft.length_le.trans (hlimit groupId items hgroup)
      · refine ⟨h.sound (h.not_mem hitem fun other hother => ?_), id⟩
        rw [hgroup, Option.some.injEq] at hother
        exact hother ▸ hin

/-- A refresh puts everything in order; the limit holds after it when there was room. -/
theorem refreshMessage_sound {s : State μ γ} {item : μ} (h : SoundApart s fun a => a = item)
    (hsame : IsServerMsgId (s.id item) = false → Sound s) :
    ∃ s', s.refreshMessage item = some s' ∧ Sound s' ∧
      (Limited s → (Limited s' ↔ (IsServerMsgId (s.id item) = true → RoomFor s item))) := by
  unfold State.refreshMessage
  cases hgrouped : s.grouped item with
  | none =>
    obtain ⟨hsound, hlimited⟩ := unregisterMessage_sound h
    refine ⟨_, rfl, hsound, fun hlimit => iff_of_true (hlimited hlimit) ?_⟩
    intro _ groupId items hsome
    rw [hgrouped] at hsome
    cases hsome
  | some groupId =>
    have hitem := groupId_of_grouped hgrouped
    simp only [roomFor_iff hgrouped]
    by_cases hserver : IsServerMsgId (s.id item) = true
    swap
    · rw [if_pos hserver]
      refine ⟨s, rfl, hsame (Bool.eq_false_of_not_eq_true hserver), fun hlimit => ?_⟩
      exact iff_of_true hlimit fun hyes => absurd hyes hserver
    rw [if_neg (not_not.mpr hserver)]
    cases hgroup : s.groups groupId with
    | none =>
      obtain ⟨hsound, hlimited⟩ :=
        registerMessage_sound h (h.not_mem hitem (by simp [hgroup]))
      exact ⟨_, rfl, hsound, fun hlimit => iff_of_true (hlimited hlimit) (by simp)⟩
    | some items =>
      by_cases hin : item ∈ items
      · obtain ⟨moved, hmove, hlength, hsound⟩ := moveItem_sound h hgroup hin hserver
        simp only [if_neg (not_not.mpr hin), hmove]
        refine ⟨_, rfl, hsound, fun hlimit => iff_of_true ?_ ?_⟩
        · rw [limited_put hlimit]
          intro new hnew
          obtain rfl := Option.some.inj hnew
          exact hlength ▸ hlimit groupId items hgroup
        · rintro _ other ⟨⟩ hnot
          exact absurd hin hnot
      · simp only [if_pos hin]
        refine ⟨_, rfl, insertAt_sound h hitem (by rw [hgroup]; rfl) hin, fun hlimit => ?_⟩
        rw [limited_put hlimit]
        constructor
        · rintro hle _ other ⟨⟩ _
          have := hle _ rfl
          rwa [insertAt_length] at this
        · intro hlt new hnew
          obtain rfl := Option.some.inj hnew
          rw [insertAt_length]
          exact hlt hserver items rfl hin

/-! ## Events -/

omit [DecidableEq γ] in
theorem change_item (s : State μ γ) (item other : μ) (new : HistoryItem γ) :
    (s.change item new).item other = if other = item then new else s.item other :=
  Function.update_apply _ _ _ _

omit [DecidableEq γ] in
theorem change_id (s : State μ γ) (item other : μ) (new : HistoryItem γ) :
    (s.change item new).id other = if other = item then new.id else s.id other := by
  rw [State.id, change_item]
  split_ifs <;> rfl

omit [DecidableEq γ] in
/-- The message whose data change may stand at a wrong place afterwards. -/
theorem change_apart {s : State μ γ} (h : Sound s) {item : μ} (new : HistoryItem γ)
    (hgroup : (s.item item).groupId = none ∨ new.groupId = (s.item item).groupId)
    (hid : new.id = s.id item ∨ ∀ other, s.id other ≠ new.id) :
    SoundApart (s.change item new) fun a => a = item where
  member groupId items hitems a ha := by
    have hold := h.member groupId items hitems a ha
    rw [change_item]
    split_ifs with heq
    · subst heq
      obtain hnone | hsame := hgroup
      · rw [hnone] at hold
        cases hold
      · rw [hsame, hold]
    · exact hold
  nonempty := h.nonempty
  nodup := h.nodup
  ordered groupId items hitems kept hkept hnot := by
    refine (h.ordered groupId items hitems kept hkept fun _ _ => not_false).imp_of_mem ?_
    intro a b ha hb
    rw [change_id, change_id, if_neg (hnot a ha), if_neg (hnot b hb)]
    exact id
  distinct a b := by
    rw [change_id, change_id]
    split_ifs with ha hb hb
    · exact fun _ _ => ha.trans hb.symm
    · intro hserver heq
      obtain hsame | hnew := hid
      · rw [hsame] at hserver heq
        exact ha.trans (h.distinct item b hserver heq)
      · exact absurd heq.symm (hnew b)
    · intro hserver heq
      obtain hsame | hnew := hid
      · rw [hsame] at heq
        exact (h.distinct a item hserver heq).trans hb.symm
      · exact absurd heq (hnew a)
    · exact h.distinct a b

omit [DecidableEq γ] in
/-- Data that leave the id alone leave the order alone. -/
theorem change_sound {s : State μ γ} (h : Sound s) {item : μ} {new : HistoryItem γ}
    (hgroup : new.groupId = (s.item item).groupId) (hid : new.id = s.id item) :
    Sound (s.change item new) := by
  have hapart := change_apart h new (.inr hgroup) (.inl hid)
  have hsame : (s.change item new).id = s.id := by
    funext other
    rw [change_id]
    split_ifs with heq
    · rw [hid, heq]
    · rfl
  refine ⟨hapart.member, hapart.nonempty, hapart.nodup, ?_, hapart.distinct⟩
  intro groupId items hitems kept hkept hnot
  rw [hsame]
  exact h.ordered groupId items hitems kept hkept hnot

/-- A possible event never fails, and keeps all but the limit; that it keeps when there is
room for what a refresh puts in. -/
theorem step_sound {s : State μ γ} (h : Sound s) {e : Event μ γ} (he : Possible s e) :
    ∃ s', step s e = some s' ∧ Sound s' ∧ (Limited s → (Limited s' ↔ Meets s e)) := by
  cases e with
  | setGroupId item groupId =>
    have hnew : ∀ other items, s.groups other = some items → item ∉ items := by
      intro other items hgroup hin
      have := h.member other items hgroup item hin
      rw [he] at this
      cases this
    obtain ⟨hsound, hlimited⟩ := registerMessage_sound
      (change_apart h { s.item item with groupId } (.inl he) (.inl rfl)) hnew
    refine ⟨_, if_neg (not_not.mpr he), hsound, fun hlimit => iff_of_true (hlimited hlimit) trivial⟩
  | setRealId item newId =>
    obtain ⟨hlocal, hserver, hnew⟩ := he
    have hid : (s.change item { s.item item with id := newId }).id item = newId := by
      rw [change_id, if_pos rfl]
    obtain ⟨s', hstep, hsound, hlimited⟩ := refreshMessage_sound
      (change_apart h { s.item item with id := newId } (.inr rfl) (.inr hnew))
      (by rw [hid, hserver]; exact fun hno => absurd hno (by decide))
    refine ⟨s', ?_, hsound, fun hlimit => (hlimited hlimit).trans ?_⟩
    · rw [step, hlocal, if_neg (by decide)]
      exact hstep
    · have hgrouped : (s.change item { s.item item with id := newId }).grouped item =
          s.grouped item := by
        rw [State.grouped, change_item, if_pos rfl]
        rfl
      rw [hid, Meets, RoomFor, RoomFor, hgrouped]
      exact ⟨fun hroom => hroom hserver, fun hroom _ => hroom⟩
  | setMedia item canBeGrouped =>
    exact ⟨_, rfl, change_sound h rfl rfl, fun hlimit => iff_of_true hlimit trivial⟩
  | registerMessage item =>
    obtain ⟨hsound, hlimited⟩ := registerMessage_sound (h.apart _) he
    exact ⟨_, rfl, hsound, fun hlimit => iff_of_true (hlimited hlimit) trivial⟩
  | unregisterMessage item =>
    obtain ⟨hsound, hlimited⟩ := unregisterMessage_sound (h.apart fun a => a = item)
    exact ⟨_, rfl, hsound, fun hlimit => iff_of_true (hlimited hlimit) trivial⟩
  | refreshMessage item => exact refreshMessage_sound (h.apart _) fun _ => h

/-- No run fails, whatever the limit. -/
theorem run_sound {s : State μ γ} (h : Sound s) {events : List (Event μ γ)}
    (hpossible : Along Possible s events) : ∃ s', run s events = some s' ∧ Sound s' := by
  induction events generalizing s with
  | nil => exact ⟨s, rfl, h⟩
  | cons e rest ih =>
    obtain ⟨s', hstep, hsound, -⟩ := step_sound h hpossible.1
    obtain ⟨t, ht, hlast⟩ := ih hsound (hpossible.2 s' hstep)
    exact ⟨t, by rw [run, List.foldlM_cons, hstep]; exact ht, hlast⟩

theorem run_valid_of_sound {s : State μ γ} (h : Sound s) (hlimit : Limited s)
    {events : List (Event μ γ)} (hpossible : Along Possible s events) :
    (∀ before after, events = before ++ after → ∃ s', run s before = some s' ∧ Valid s') ↔
      Along Meets s events := by
  induction events generalizing s with
  | nil =>
    refine iff_of_true ?_ trivial
    intro before after heq
    obtain ⟨rfl, rfl⟩ := List.append_eq_nil_iff.mp heq.symm
    exact ⟨s, rfl, h.valid_iff.mpr hlimit⟩
  | cons e rest ih =>
    obtain ⟨s', hstep, hsound, hlimited⟩ := step_sound h hpossible.1
    have hcons (before : List (Event μ γ)) : run s (e :: before) = run s' before := by
      rw [run, List.foldlM_cons, hstep]
      rfl
    constructor
    · intro hvalid
      obtain ⟨t, ht, hfirst⟩ := hvalid [e] rest rfl
      rw [hcons] at ht
      obtain rfl := Option.some.inj ht
      have hlimit' := hsound.valid_iff.mp hfirst
      refine ⟨(hlimited hlimit).mp hlimit', fun t ht => ?_⟩
      obtain rfl : s' = t := Option.some.inj (hstep.symm.trans ht)
      refine (ih hsound hlimit' (hpossible.2 s' hstep)).mp fun before after heq => ?_
      rw [← hcons]
      exact hvalid (e :: before) after (by rw [heq]; rfl)
    · rintro ⟨hmeets, hrest⟩ before after heq
      cases before with
      | nil => exact ⟨s, rfl, h.valid_iff.mpr hlimit⟩
      | cons first before =>
        obtain ⟨rfl, rfl⟩ := List.cons_eq_cons.mp heq
        rw [hcons]
        exact (ih hsound ((hlimited hlimit).mpr hmeets) (hpossible.2 s' hstep)).mpr
          (hrest s' hstep) before after rfl

/-- The groups are valid after every event exactly when each refresh that puts a message
into its group finds room there. -/
theorem run_valid_iff (s₀ : State μ γ) (hfresh : Fresh s₀) (events : List (Event μ γ))
    (hpossible : Along Possible s₀ events) :
    (∀ before after, events = before ++ after → ∃ s, run s₀ before = some s ∧ Valid s) ↔
      Along Meets s₀ events :=
  run_valid_of_sound hfresh.sound hfresh.limited hpossible

/-- Local messages without a group, all with a photo. -/
def localPhotos : State (Fin 11) ℕ where
  item index := ⟨-(index.val + 1 : ℕ), none, true⟩
  groups _ := none

theorem localPhotos_fresh : Fresh localPhotos where
  groups _ := rfl
  distinct a b _ heq := by
    simp only [State.id, localPhotos] at heq
    omega

theorem along_cons {P : State μ γ → Event μ γ → Prop} {s s' : State μ γ} {e : Event μ γ}
    {rest : List (Event μ γ)} (he : P s e) (hstep : step s e = some s') (hrest : Along P s' rest) :
    Along P s (e :: rest) := by
  refine ⟨he, fun t ht => ?_⟩
  obtain rfl : s' = t := Option.some.inj (hstep.symm.trans ht)
  exact hrest

theorem run_valid_iff_one :
    (∀ before after, [.setGroupId 0 7, .setMedia 0 false, .refreshMessage 0] = before ++ after →
        ∃ s, run localPhotos before = some s ∧ Valid s) ↔
      Along Meets localPhotos [.setGroupId 0 7, .setMedia 0 false, .refreshMessage 0] :=
  run_valid_iff localPhotos localPhotos_fresh
    [.setGroupId 0 7, .setMedia 0 false, .refreshMessage 0]
    (along_cons rfl rfl (along_cons trivial rfl (along_cons trivial rfl trivial)))

/-- The eleventh message of an album is not registered, but its refresh puts it in. -/
theorem refresh_overfills :
    ¬ ∀ (s₀ : State (Fin 11) ℕ) (events : List (Event (Fin 11) ℕ)), Fresh s₀ →
      Along Possible s₀ events → ∃ s, run s₀ events = some s ∧ Valid s := by
  intro h
  obtain ⟨s, hs, hvalid⟩ := h localPhotos
    ((List.finRange 11).map (fun item => .setGroupId item 7) ++ [.setRealId 10 5])
    localPhotos_fresh (by
      iterate 11 refine along_cons rfl rfl ?_
      exact along_cons ⟨rfl, rfl, by decide⟩ rfl trivial)
  have hgroup : (s.groups 7).map List.length = some 11 := by
    obtain rfl := Option.some.inj hs
    rfl
  rw [Option.map_eq_some_iff] at hgroup
  obtain ⟨items, hitems, hlength⟩ := hgroup
  have := hvalid.limit 7 items hitems
  rw [hlength] at this
  exact absurd this (by decide)

end Steps

end Bettergram.Data.Groups
