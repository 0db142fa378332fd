import Mathlib.Data.List.TakeWhile
import Mathlib.Data.List.Pairwise

/-! # Sorted vectors as sets

A flat set is a vector in the order `lt` without equals. An element may be
changed in place; then it is swapped with its neighbour on either side when the
order asks for it, and erased when it meets an equal one.
-/

namespace Bettergram.Foundation

variable {α : Type*}

/-- The index at which a binary search over a partitioned vector ends. -/
def lowerBound (p : α → Bool) (l : List α) : ℕ := (l.takeWhile p).length

theorem take_lowerBound (p : α → Bool) (l : List α) : l.take (lowerBound p l) = l.takeWhile p :=
  (List.prefix_iff_eq_take.mp (List.takeWhile_prefix p)).symm

theorem drop_lowerBound (p : α → Bool) (l : List α) : l.drop (lowerBound p l) = l.dropWhile p := by
  calc l.drop (lowerBound p l)
      = (l.takeWhile p ++ l.dropWhile p).drop (l.takeWhile p).length := by
        rw [List.takeWhile_append_dropWhile, lowerBound]
    _ = l.dropWhile p := List.drop_left

/-- When `p` gets lost only once, all that is behind the found place is without it. -/
theorem not_of_mem_dropWhile {p : α → Bool} {l : List α} (h : l.Pairwise fun a b => p b → p a) :
    ∀ a ∈ l.dropWhile p, p a = false := by
  induction l with
  | nil => simp
  | cons a l ih =>
    obtain ⟨ha, hl⟩ := List.pairwise_cons.mp h
    by_cases hp : p a = true
    · rw [List.dropWhile_cons_of_pos hp]
      exact ih hl
    · rw [List.dropWhile_cons_of_neg hp]
      intro b hb
      rcases List.mem_cons.mp hb with rfl | hb
      · simpa using hp
      · by_contra hpb
        exact hp (ha b hb (by simpa using hpb))

variable (lt : α → α → Prop) [DecidableRel lt]

/-- The changed element and its neighbours on one side; nothing is left of it next to an equal. -/
def settle (which : α) : List α → Option α × List α
  | [] => (some which, [])
  | a :: rest =>
    if lt a which then
      let (left, rest) := settle a rest
      (left, which :: rest)
    else if lt which a then (some which, a :: rest)
    else (none, a :: rest)

/-- `modify` of a flat set; `none` when the change itself fails or there is no such element. -/
def modify (i : ℕ) (action : α → Option α) (l : List α) : Option (List α) :=
  match l.drop i with
  | [] => none
  | a :: after => do
    let a ← action a
    match settle lt a after with
    | (none, after) => some (l.take i ++ after)
    | (some a, after) =>
      match settle (fun b c => lt c b) a (l.take i).reverse with
      | (none, before) => some (before.reverse ++ after)
      | (some a, before) => some (before.reverse ++ a :: after)

def emplace (a : α) : List α → List α
  | [] => [a]
  | b :: rest =>
    if lt b a then b :: emplace a rest else if lt a b then a :: b :: rest else b :: rest

variable {lt}

theorem settle_of_lt (hasymm : ∀ a b, lt a b → ¬lt b a) {a : α} {l : List α}
    (h : ∀ b ∈ l, lt a b) : settle lt a l = (some a, l) := by
  cases l with
  | nil => rfl
  | cons b l =>
    have hb := h b (by simp)
    rw [settle, if_neg (hasymm a b hb), if_pos hb]

/-- A change that keeps the element between its neighbours moves nothing. -/
theorem modify_append (hasymm : ∀ a b, lt a b → ¬lt b a) {before after : List α} {a b : α}
    {action : α → Option α} (haction : action a = some b) (hbefore : ∀ c ∈ before, lt c b)
    (hafter : ∀ c ∈ after, lt b c) :
    modify lt before.length action (before ++ a :: after) = some (before ++ b :: after) := by
  have hback : settle (fun c d => lt d c) b before.reverse = (some b, before.reverse) :=
    settle_of_lt (fun c d hcd => hasymm d c hcd) fun c hc => hbefore c (List.mem_reverse.mp hc)
  unfold modify
  rw [List.drop_left, List.take_left]
  simp only [haction, Option.bind_eq_bind, Option.bind_some, settle_of_lt hasymm hafter, hback,
    List.reverse_reverse]

theorem emplace_append (hasymm : ∀ a b, lt a b → ¬lt b a) {before after : List α} {a : α}
    (hbefore : ∀ c ∈ before, lt c a) (hafter : ∀ c ∈ after, lt a c) :
    emplace lt a (before ++ after) = before ++ a :: after := by
  induction before with
  | nil =>
    cases after with
    | nil => rfl
    | cons b after =>
      have hb := hafter b (by simp)
      rw [List.nil_append, emplace, if_neg (hasymm a b hb), if_pos hb, List.nil_append]
  | cons c before ih =>
    rw [List.cons_append, emplace, if_pos (hbefore c (by simp)),
      ih fun d hd => hbefore d (by simp [hd]), List.cons_append]

end Bettergram.Foundation
