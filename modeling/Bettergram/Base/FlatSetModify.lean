import Bettergram.Foundation.FlatSet
import Bettergram.Foundation.SortedEntries
import Mathlib.Data.List.Basic

/-! # Changing an element of a flat set

The iterator to the changed element stays where it is while the loops go on, so
that after one swap they compare the neighbour that was swapped. The element
moves by one place, and what it equals behind that place it is not merged with.
-/

namespace Bettergram.Base
open Foundation

variable {α : Type*} {lt : α → α → Prop} [DecidableRel lt]

/-- The elements are those of a list, with equals merged into one. -/
structure KeepsSet (lt : α → α → Prop) (l l' : List α) : Prop where
  sorted : l'.Pairwise lt
  old : ∀ a ∈ l', a ∈ l
  all : ∀ a ∈ l, ∃ b ∈ l', Equivalent lt a b

/-- An element that has to go over its neighbour has not to go over the next one, nor meet its
equal there. -/
def OnePlace (lt : α → α → Prop) (before after : List α) (v : α) : Prop :=
  (∀ a b rest, after = a :: b :: rest → lt a v → lt v b) ∧
    ∀ a b rest, before = rest ++ [b, a] → lt v a → lt b v

variable {before after rest : List α} {a b v : α}

section Order

variable [IsStrictWeakOrder α lt]

omit [DecidableRel lt] [IsStrictWeakOrder α lt] in
theorem pairwise_insert (h : (before ++ after).Pairwise lt) (hbefore : ∀ b ∈ before, lt b v)
    (hafter : ∀ a ∈ after, lt v a) : (before ++ v :: after).Pairwise lt := by
  obtain ⟨hb, ha, hba⟩ := List.pairwise_append.mp h
  have hva : (v :: after).Pairwise lt := List.pairwise_cons.mpr ⟨hafter, ha⟩
  refine List.pairwise_append.mpr ⟨hb, hva, fun b hmem a hmem' => ?_⟩
  rcases List.mem_cons.mp hmem' with rfl | hmem'
  · exact hbefore b hmem
  · exact hba b hmem a hmem'

omit [DecidableRel lt] in
theorem keepsSet_of_perm {l l' : List α} (hperm : l'.Perm l) (hsorted : l'.Pairwise lt) :
    KeepsSet lt l l' where
  sorted := hsorted
  old a ha := hperm.mem_iff.mp ha
  all a ha := ⟨a, hperm.mem_iff.mpr ha, Equivalent.refl a⟩

omit [DecidableRel lt] in
/-- An element next to its equal is merged into that. -/
theorem keepsSet_merge (hsorted : (before ++ after).Pairwise lt) (hmem : a ∈ before ++ after)
    (hequal : Equivalent lt v a) : KeepsSet lt (before ++ v :: after) (before ++ after) where
  sorted := hsorted
  old b hb := by
    rw [List.mem_append] at hb
    rw [List.mem_append, List.mem_cons]
    exact hb.imp id .inr
  all b hb := by
    rw [List.mem_append, List.mem_cons] at hb
    obtain hb | rfl | hb := hb
    · exact ⟨b, List.mem_append_left after hb, Equivalent.refl b⟩
    · exact ⟨a, hmem, hequal⟩
    · exact ⟨b, List.mem_append_right before hb, Equivalent.refl b⟩

/-! ## The two loops -/

/-- After a swap the neighbour is at the iterator, and goes no further. -/
theorem settle_swap {r : α → α → Prop} [DecidableRel r] (hasymm : ∀ a b, r a b → ¬r b a)
    (hlt : r a v) (hrest : ∀ b ∈ rest, r a b) : settle r v (a :: rest) = (some a, v :: rest) := by
  rw [settle, if_pos hlt, settle_of_lt hasymm hrest]

/-- What is in front of the place where the backward loop begins does not move an element that is
behind all of it. -/
theorem modify_back_stays {w x : α} (action : α → α) (hv : action x = v)
    (hafter : settle lt v after = (some w, rest)) (hbefore : ∀ b ∈ before, lt b w) :
    modify lt before.length (fun a => some (action a)) (before ++ x :: after) =
      some (before ++ w :: rest) := by
  have hback : settle (fun b c => lt c b) w before.reverse = (some w, before.reverse) :=
    settle_of_lt (fun _ _ => lt_asymm_of_weak) fun b hb => hbefore b (List.mem_reverse.mp hb)
  rw [Foundation.modify.eq_def, List.drop_left, List.take_left]
  simp [hv, hafter, hback]

/-! ## Exactly when -/

/-- Forward: the first element behind is smaller than the changed one. -/
theorem modify_forward_iff {x : α} (action : α → α) (hv : action x = v)
    (hsorted : (before ++ x :: a :: rest).Pairwise lt) (hlt : lt a v) :
    (∃ l', modify lt before.length (fun a => some (action a)) (before ++ x :: a :: rest) = some l' ∧
        KeepsSet lt (before ++ v :: a :: rest) l') ↔ OnePlace lt before (a :: rest) v := by
  obtain ⟨hb, hxa, hbxa⟩ := List.pairwise_append.mp hsorted
  obtain ⟨-, har⟩ := List.pairwise_cons.mp hxa
  obtain ⟨ha, hr⟩ := List.pairwise_cons.mp har
  have hbefore : ∀ b ∈ before, lt b a := fun b hmem => hbxa b hmem a (by simp)
  have hforward := settle_swap (fun _ _ => lt_asymm_of_weak) hlt ha
  have hmodify := modify_back_stays action hv hforward hbefore
  have hperm : (before ++ a :: v :: rest).Perm (before ++ v :: a :: rest) :=
    (List.Perm.swap v a rest).append_left before
  rw [hmodify]
  constructor
  · rintro ⟨l', hl', hkeeps⟩
    obtain rfl := Option.some.inj hl'
    refine ⟨fun a' b rest' heq _ => ?_, fun b c rest' heq hless => ?_⟩
    · obtain ⟨-, rfl⟩ := List.cons.inj heq
      obtain ⟨-, hpair, -⟩ := List.pairwise_append.mp hkeeps.sorted
      exact (List.pairwise_cons.mp (List.pairwise_cons.mp hpair).2).1 b (by simp)
    · have hba := hbefore b (by simp [heq])
      exact absurd (IsTrans.trans b a v hba hlt) (lt_asymm_of_weak hless)
  · rintro ⟨hforward, -⟩
    refine ⟨_, rfl, keepsSet_of_perm hperm ?_⟩
    have hbr : (before ++ a :: rest).Pairwise lt :=
      hsorted.sublist ((List.sublist_cons_self x (a :: rest)).append_left before)
    have hvr : ∀ c ∈ rest, lt v c := by
      intro c hc
      cases rest with
      | nil => exact absurd hc (by simp)
      | cons d rest =>
        have hvd := hforward a d rest rfl hlt
        rcases List.mem_cons.mp hc with rfl | hc
        · exact hvd
        · exact IsTrans.trans v d c hvd ((List.pairwise_cons.mp hr).1 c hc)
    have hsplit : before ++ a :: v :: rest = (before ++ [a]) ++ v :: rest := by simp
    rw [hsplit]
    refine pairwise_insert (by simpa using hbr) (fun c hc => ?_) hvr
    rcases List.mem_append.mp hc with hc | hc
    · exact IsTrans.trans c a v (hbefore c hc) hlt
    · rw [List.mem_singleton.mp hc]
      exact hlt

/-- The first element behind is an equal. -/
theorem modify_equal_behind {x : α} (action : α → α) (hv : action x = v)
    (hsorted : (before ++ x :: a :: rest).Pairwise lt) (hequal : Equivalent lt v a) :
    ∃ l', modify lt before.length (fun a => some (action a)) (before ++ x :: a :: rest) = some l' ∧
      KeepsSet lt (before ++ v :: a :: rest) l' := by
  refine ⟨before ++ a :: rest, ?_, keepsSet_merge ?_ (by simp) hequal⟩
  · rw [Foundation.modify.eq_def, List.drop_left, List.take_left]
    simp [hv, settle, hequal.1, hequal.2]
  · exact hsorted.sublist ((List.sublist_cons_self x (a :: rest)).append_left before)

/-- Nothing behind the changed element is in its way. -/
theorem modify_behind_stays {x : α} {front : List α} {left : Option α} (action : α → α)
    (hv : action x = v) (hafter : ∀ a ∈ after, lt v a)
    (hback : settle (fun b c => lt c b) v before.reverse = (left, front)) :
    modify lt before.length (fun a => some (action a)) (before ++ x :: after) =
      some (front.reverse ++ (left.toList ++ after)) := by
  rw [Foundation.modify.eq_def, List.drop_left, List.take_left]
  cases left <;> simp [hv, settle_of_lt (fun _ _ => lt_asymm_of_weak) hafter, hback]

/-- Backward: the element in front is larger than the changed one. -/
theorem modify_backward_iff {x : α} (action : α → α) (hv : action x = v)
    (hsorted : (before ++ [b] ++ x :: after).Pairwise lt) (hafter : ∀ a ∈ after, lt v a)
    (hlt : lt v b) :
    (∃ l', modify lt (before ++ [b]).length (fun a => some (action a))
        (before ++ [b] ++ x :: after) = some l' ∧
        KeepsSet lt (before ++ [b] ++ v :: after) l') ↔ OnePlace lt (before ++ [b]) after v := by
  have hrest : (before ++ [b] ++ after).Pairwise lt :=
    hsorted.sublist ((List.sublist_cons_self x after).append_left _)
  obtain ⟨hb, -, hba⟩ := List.pairwise_append.mp hrest
  obtain ⟨hb, -, hbb⟩ := List.pairwise_append.mp hb
  have hbefore : ∀ c ∈ before, lt c b := fun c hc => hbb c hc b (by simp)
  have hback : settle (fun c d => lt d c) v (before ++ [b]).reverse =
      (some b, v :: before.reverse) := by
    rw [List.reverse_append]
    exact settle_swap (r := fun c d => lt d c) (fun _ _ => lt_asymm_of_weak) hlt
      fun c hc => hbefore c (List.mem_reverse.mp hc)
  have hperm : (before ++ v :: b :: after).Perm (before ++ [b] ++ v :: after) := by
    rw [List.append_assoc]
    exact (List.Perm.swap b v after).append_left before
  rw [modify_behind_stays action hv hafter hback]
  simp only [List.reverse_cons, List.reverse_reverse, List.append_assoc, List.singleton_append,
    Option.toList_some]
  constructor
  · rintro ⟨l', hl', hkeeps⟩
    obtain rfl := Option.some.inj hl'
    refine ⟨fun a c rest heq hless => ?_, fun a c rest heq _ => ?_⟩
    · exact absurd (hafter a (by simp [heq])) (lt_asymm_of_weak hless)
    · have hinit : before = rest ++ [c] := by
        have hsplit : before ++ [b] = (rest ++ [c]) ++ [a] := by simpa using heq
        exact (List.append_inj' hsplit rfl).1
      exact (List.pairwise_append.mp hkeeps.sorted).2.2 c (by simp [hinit]) v (by simp)
  · rintro ⟨-, hbackward⟩
    refine ⟨_, rfl, ?_⟩
    rw [List.append_assoc] at hperm
    refine keepsSet_of_perm hperm (pairwise_insert (by simpa using hrest) (fun c hc => ?_) ?_)
    · rcases List.eq_nil_or_concat' before with rfl | ⟨init, d, rfl⟩
      · exact absurd hc (by simp)
      · have hdv : lt d v := hbackward b d init (by simp) hlt
        rcases List.mem_append.mp hc with hc | hc
        · exact IsTrans.trans c d v ((List.pairwise_append.mp hb).2.2 c hc d (by simp)) hdv
        · rw [List.mem_singleton.mp hc]
          exact hdv
    · intro a ha
      rcases List.mem_cons.mp ha with rfl | ha
      · exact hlt
      · exact hafter a ha

/-- The element in front is not larger than the changed one. -/
theorem modify_back_settles {x : α} (action : α → α) (hv : action x = v)
    (hsorted : (before ++ [b] ++ x :: after).Pairwise lt) (hafter : ∀ a ∈ after, lt v a)
    (hlt : ¬lt v b) :
    ∃ l', modify lt (before ++ [b]).length (fun a => some (action a))
        (before ++ [b] ++ x :: after) = some l' ∧ KeepsSet lt (before ++ [b] ++ v :: after) l' := by
  have hrest : (before ++ [b] ++ after).Pairwise lt :=
    hsorted.sublist ((List.sublist_cons_self x after).append_left _)
  obtain ⟨hb, -, -⟩ := List.pairwise_append.mp hrest
  have hbefore : ∀ c ∈ before, lt c b := fun c hc =>
    (List.pairwise_append.mp hb).2.2 c hc b (by simp)
  by_cases hbv : lt b v
  · have hback : settle (fun c d => lt d c) v (before ++ [b]).reverse =
        (some v, (before ++ [b]).reverse) := by simp [settle, hlt, hbv]
    rw [modify_behind_stays action hv hafter hback, List.reverse_reverse]
    refine ⟨_, rfl, keepsSet_of_perm (List.Perm.refl _)
      (pairwise_insert hrest (fun c hc => ?_) hafter)⟩
    rcases List.mem_append.mp hc with hc | hc
    · exact IsTrans.trans c b v (hbefore c hc) hbv
    · rw [List.mem_singleton.mp hc]
      exact hbv
  · have hback : settle (fun c d => lt d c) v (before ++ [b]).reverse =
        (none, (before ++ [b]).reverse) := by simp [settle, hlt, hbv]
    rw [modify_behind_stays action hv hafter hback, List.reverse_reverse]
    exact ⟨_, rfl, keepsSet_merge hrest (by simp) ⟨hlt, hbv⟩⟩

/-- With all that is behind it larger, only what is in front of the changed element counts. -/
theorem modify_front_iff {x : α} (action : α → α) (hv : action x = v)
    (hsorted : (before ++ x :: after).Pairwise lt) (hafter : ∀ a ∈ after, lt v a) :
    (∃ l', modify lt before.length (fun a => some (action a)) (before ++ x :: after) = some l' ∧
        KeepsSet lt (before ++ v :: after) l') ↔ OnePlace lt before after v := by
  have hnone : ∀ a c rest, after = a :: c :: rest → lt a v → lt v c := fun a c rest heq hless =>
    absurd (hafter a (by simp [heq])) (lt_asymm_of_weak hless)
  rcases List.eq_nil_or_concat' before with rfl | ⟨before, b, rfl⟩
  · refine iff_of_true ?_ ⟨hnone, fun a c rest heq _ => absurd heq (by simp)⟩
    have hback : settle (fun c d => lt d c) v [].reverse = (some v, []) := rfl
    rw [modify_behind_stays action hv hafter hback]
    exact ⟨_, rfl, keepsSet_of_perm (List.Perm.refl _)
      (List.pairwise_cons.mpr ⟨hafter, (List.pairwise_cons.mp hsorted).2⟩)⟩
  · by_cases hlt : lt v b
    · exact modify_backward_iff action hv hsorted hafter hlt
    · refine iff_of_true (modify_back_settles action hv hsorted hafter hlt)
        ⟨hnone, fun a c rest heq hless => ?_⟩
      have hsplit : before ++ [b] = (rest ++ [c]) ++ [a] := by simpa using heq
      exact absurd ((List.singleton_inj.mp (List.append_inj' hsplit rfl).2) ▸ hless) hlt

/-- The set is kept exactly when the changed element has to move by at most one place, to the back
or to the front, and is not an equal of what is behind that. -/
theorem modify_keeps_set_iff {x : α} (hsorted : (before ++ x :: after).Pairwise lt)
    (action : α → α) :
    (∃ l', modify lt before.length (fun a => some (action a)) (before ++ x :: after) = some l' ∧
        KeepsSet lt (before ++ action x :: after) l') ↔ OnePlace lt before after (action x) := by
  obtain ⟨v, hv⟩ : ∃ v, action x = v := ⟨_, rfl⟩
  rw [hv]
  cases after with
  | nil => exact modify_front_iff action hv hsorted (by simp)
  | cons a rest =>
    obtain ⟨hb, hxa, hba⟩ := List.pairwise_append.mp hsorted
    obtain ⟨hx, har⟩ := List.pairwise_cons.mp hxa
    by_cases hless : lt a v
    · exact modify_forward_iff action hv hsorted hless
    by_cases hmore : lt v a
    · refine modify_front_iff action hv hsorted fun c hc => ?_
      rcases List.mem_cons.mp hc with rfl | hc
      · exact hmore
      · exact IsTrans.trans v a c hmore ((List.pairwise_cons.mp har).1 c hc)
    · have hequal : Equivalent lt v a := ⟨hmore, hless⟩
      refine iff_of_true (modify_equal_behind action hv hsorted hequal)
        ⟨fun a' c rest' heq hless' => ?_, fun b c rest' heq hmore' => ?_⟩
      · obtain ⟨rfl, -⟩ := List.cons.inj heq
        exact absurd hless' hless
      · have hlt : lt b a := hba b (by simp [heq]) a (by simp)
        exact absurd ((hequal.lt_iff b).mp hmore') (lt_asymm_of_weak hlt)

theorem modify_keeps_set_iff_one :
    (∃ l', modify (· < ·) [0, 1].length (fun a => some (a + 2)) ([0, 1] ++ 5 :: [6, 8]) = some l' ∧
        KeepsSet (· < ·) ([0, 1] ++ (5 + 2) :: [6, 8]) l') ↔
      OnePlace (· < ·) [0, 1] [6, 8] (5 + 2) := by
  have hsorted : ([0, 1] ++ 5 :: [6, 8]).Pairwise (· < ·) := by decide
  exact modify_keeps_set_iff hsorted (· + 2)

/-- The largest element stays behind the first of those that it should go over. -/
theorem modify_stops_after_one :
    ¬∃ l', modify (· < ·) 0 (fun _ => some 10) [1, 5, 6, 7] = some l' ∧
      KeepsSet (· < ·) [10, 5, 6, 7] l' := by
  have hmodify : modify (· < ·) 0 (fun _ => some 10) [1, 5, 6, 7] = some [5, 10, 6, 7] := by decide
  rintro ⟨l', hl', hkeeps⟩
  obtain rfl := Option.some.inj (hmodify.symm.trans hl')
  exact absurd hkeeps.sorted (by decide)

end Order

end Bettergram.Base
