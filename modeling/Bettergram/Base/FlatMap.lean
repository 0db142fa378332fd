import Bettergram.Foundation.SortedEntries
import Mathlib.Data.List.InsertIdx

/-! # Maps in sorted vectors

A position is an index, and `end` is the length. Reading an entry behind the
last one is `none`.
-/

namespace Bettergram.Base
open Foundation

variable {K V : Type*} (lt : K → K → Prop) [DecidableRel lt]

/-- `empty() || compare()(key, front().first)` -/
def beforeFront (key : K) (l : List (K × V)) : Bool := l.head?.all fun front => lt key front.1

/-- `empty() || compare()(back().first, key)` -/
def behindBack (key : K) (l : List (K × V)) : Bool := l.getLast?.all fun back => lt back.1 key

def getLowerBound (key : K) (l : List (K × V)) : ℕ := lowerBound (fun e => decide (lt e.1 key)) l

def getUpperBound (key : K) (l : List (K × V)) : ℕ := lowerBound (fun e => !decide (lt key e.1)) l

namespace FlatMultiMap

/-- The entries, and the position of the new one. -/
def insert (value : K × V) (l : List (K × V)) : List (K × V) × ℕ :=
  if beforeFront lt value.1 l then (value :: l, 0)
  else if l.getLast?.all fun back => ¬lt value.1 back.1 then (l ++ [value], l.length)
  else
    let place := getUpperBound lt value.1 l
    (l.insertIdx place value, place)

def emplace (key : K) (value : V) (l : List (K × V)) : List (K × V) × ℕ := insert lt (key, value) l

def removeOne (key : K) (l : List (K × V)) : Option (List (K × V) × Bool) :=
  if beforeFront lt key l || behindBack lt key l then some (l, false)
  else
    let place := getLowerBound lt key l
    l[place]?.map fun e => if lt key e.1 then (l, false) else (l.eraseIdx place, true)

def removeAll (key : K) (l : List (K × V)) : List (K × V) × ℕ :=
  if beforeFront lt key l || behindBack lt key l then (l, 0)
  else
    let first := getLowerBound lt key l
    let second := getUpperBound lt key l
    if first = second then (l, 0) else (l.take first ++ l.drop second, second - first)

def findFirst (key : K) (l : List (K × V)) : Option ℕ :=
  if beforeFront lt key l || behindBack lt key l then some l.length
  else
    let place := getLowerBound lt key l
    l[place]?.map fun e => if lt key e.1 then l.length else place

def contains (key : K) (l : List (K × V)) : Option Bool :=
  (findFirst lt key l).map fun place => place ≠ l.length

def count (key : K) (l : List (K × V)) : ℕ :=
  if beforeFront lt key l || behindBack lt key l then 0
  else getUpperBound lt key l - getLowerBound lt key l

end FlatMultiMap

namespace FlatMap

/-- The search of `insert`, `try_emplace` and `operator[]`: an entry is put in when there is none
with the key. The position is that of the entry with the key. -/
def place (key : K) (value : K × V) (l : List (K × V)) : Option (List (K × V) × ℕ × Bool) :=
  if beforeFront lt key l then some (value :: l, 0, true)
  else if behindBack lt key l then some (l ++ [value], l.length, true)
  else
    let place := getLowerBound lt key l
    l[place]?.map fun e =>
      if lt key e.1 then (l.insertIdx place value, place, true) else (l, place, false)

def insert (value : K × V) (l : List (K × V)) : Option (List (K × V) × ℕ × Bool) :=
  place lt value.1 value l

def emplace (key : K) (value : V) (l : List (K × V)) : Option (List (K × V) × ℕ × Bool) :=
  insert lt (key, value) l

def tryEmplace (key : K) (value : V) (l : List (K × V)) : Option (List (K × V) × ℕ × Bool) :=
  place lt key (key, value) l

/-- `operator[]`, and what is done with the value it refers to. -/
def subscript [Inhabited V] (key : K) (action : V → V) (l : List (K × V)) :
    Option (List (K × V) × ℕ) :=
  (place lt key (key, default) l).map fun (l, place, _) =>
    (l.modify place fun e => (e.1, action e.2), place)

def remove (key : K) (l : List (K × V)) : Option (List (K × V) × Bool) :=
  FlatMultiMap.removeOne lt key l

def erase (key : K) (l : List (K × V)) : List (K × V) × ℕ := FlatMultiMap.removeAll lt key l

def find (key : K) (l : List (K × V)) : Option ℕ := FlatMultiMap.findFirst lt key l

def take (key : K) (l : List (K × V)) : Option (List (K × V) × Option V) :=
  (find lt key l).bind fun it =>
    if it = l.length then some (l, none)
    else l[it]?.map fun e => (l.eraseIdx it, some e.2)

/-- The rest of `std::unique` when `a` is the entry kept last. -/
def uniqueFrom (a : K × V) : List (K × V) → List (K × V)
  | [] => [a]
  | b :: l => if ¬lt a.1 b.1 then uniqueFrom a l else a :: uniqueFrom b l

/-- `finalize`: of entries next to each other that are equal the first is kept. -/
def finalize : List (K × V) → List (K × V)
  | [] => []
  | a :: l => uniqueFrom lt a l

end FlatMap

end Bettergram.Base

/-! ## The places a search finds

The shortcuts for the first and the last entry do what the search would do: each
operation changes the entries with the key, and no others.
-/

namespace Bettergram.Base
open Foundation

variable {K V : Type*} {lt : K → K → Prop} [DecidableRel lt] {key : K} {l : List (K × V)}

theorem insertIdx_append_length {α : Type*} (l l' : List α) (a : α) :
    (l ++ l').insertIdx l.length a = l ++ a :: l' := by
  induction l with
  | nil => rfl
  | cons b l ih => rw [List.cons_append, List.length_cons, List.insertIdx_succ_cons, ih]; rfl

theorem eraseIdx_append_length {α : Type*} (l l' : List α) (a : α) :
    (l ++ a :: l').eraseIdx l.length = l ++ l' := by
  rw [List.eraseIdx_append_of_length_le le_rfl, Nat.sub_self, List.eraseIdx_cons_zero]

theorem getElem?_append_cons_length {α : Type*} (l l' : List α) (a : α) :
    (l ++ a :: l')[l.length]? = some a := by
  rw [List.getElem?_append_right le_rfl, Nat.sub_self, List.getElem?_cons_zero]

variable [IsStrictWeakOrder K lt] (h : NonDecreasing lt l)
include h

theorem beforeFront_iff : beforeFront lt key l ↔ ∀ e ∈ l, lt key e.1 := by
  cases l with
  | nil => simp [beforeFront]
  | cons a l =>
    have ha := (List.pairwise_cons.mp h).1
    have hhead : beforeFront lt key (a :: l) = decide (lt key a.1) := rfl
    rw [hhead, decide_eq_true_iff, List.forall_mem_cons]
    exact ⟨fun hk => ⟨hk, fun e he => lt_of_lt_of_not_lt hk (ha e he)⟩, And.left⟩

/-- A condition on keys that holds below as well holds of all when it holds of the last. -/
theorem getLast?_all_iff {p : K → Prop} [DecidablePred p]
    (hp : ∀ a b, p b → ¬lt b a → p a) :
    (l.getLast?.all fun e => decide (p e.1)) ↔ ∀ e ∈ l, p e.1 := by
  obtain rfl | ⟨l', a, rfl⟩ := List.eq_nil_or_concat l
  · simp
  · rw [List.concat_eq_append] at h ⊢
    have ha : ∀ e ∈ l', ¬lt a.1 e.1 := fun e he =>
      (List.pairwise_append.mp h).2.2 e he a (List.mem_singleton_self a)
    rw [List.getLast?_append, List.getLast?_singleton, Option.some_or, Option.all_some, decide_eq_true_iff]
    refine ⟨fun hpa e he => ?_, fun hall => hall a (by simp)⟩
    obtain he | he := List.mem_append.mp he
    · exact hp _ _ hpa (ha e he)
    · obtain rfl := List.mem_singleton.mp he
      exact hpa

theorem behindBack_iff : behindBack lt key l ↔ ∀ e ∈ l, lt e.1 key :=
  getLast?_all_iff h fun _ _ hb hba => lt_of_not_lt_of_lt hba hb

omit h in
theorem parts_of_before (hall : ∀ e ∈ l, lt key e.1) :
    smaller lt key l = [] ∧ equals lt key l = [] ∧ larger lt key l = l := by
  refine ⟨List.filter_eq_nil_iff.mpr fun e he => ?_, equals_eq_nil fun e he heq => ?_,
    List.filter_eq_self.mpr fun e he => decide_eq_true (hall e he)⟩
  · rw [decide_eq_true_iff]
    exact lt_asymm_of_weak (hall e he)
  · exact heq.2 (hall e he)

omit h in
theorem parts_of_behind (hall : ∀ e ∈ l, lt e.1 key) :
    smaller lt key l = l ∧ equals lt key l = [] ∧ larger lt key l = [] := by
  refine ⟨List.filter_eq_self.mpr fun e he => decide_eq_true (hall e he),
    equals_eq_nil fun e he heq => heq.1 (hall e he), List.filter_eq_nil_iff.mpr fun e he => ?_⟩
  rw [decide_eq_true_iff]
  exact lt_asymm_of_weak (hall e he)

theorem equals_nil_of_outside (hout : beforeFront lt key l || behindBack lt key l) :
    equals lt key l = [] := by
  obtain hfront | hback := Bool.or_eq_true_iff.mp hout
  · exact (parts_of_before ((beforeFront_iff h).mp hfront)).2.1
  · exact (parts_of_behind ((behindBack_iff h).mp hback)).2.1

/-- The entry a search ends at: the first one with the key, or one behind. -/
theorem getLowerBound_entry (hback : ¬behindBack lt key l) :
    ∃ e rest, equals lt key l ++ larger lt key l = e :: rest ∧
      l[getLowerBound lt key l]? = some e ∧ (lt key e.1 ↔ equals lt key l = []) := by
  cases hparts : equals lt key l ++ larger lt key l with
  | nil =>
    refine absurd ((behindBack_iff h).mpr fun e he => ?_) hback
    have hsmaller := h.parts key
    rw [hparts, List.append_nil] at hsmaller
    rw [← hsmaller] at he
    exact (mem_smaller.mp he).2
  | cons e rest =>
    refine ⟨e, rest, rfl, ?_, ?_⟩
    · have hread := getElem?_append_cons_length (smaller lt key l) rest e
      rwa [← hparts, h.parts key, ← h.lowerBound_eq key] at hread
    · cases hequals : equals lt key l with
      | nil =>
        rw [hequals, List.nil_append] at hparts
        have he : e ∈ larger lt key l := hparts ▸ List.mem_cons_self
        exact iff_of_true (mem_larger.mp he).2 rfl
      | cons a as =>
        rw [hequals, List.cons_append, List.cons.injEq] at hparts
        have he : e ∈ equals lt key l := hequals ▸ hparts.1 ▸ List.mem_cons_self
        exact iff_of_false (mem_equals.mp he).2.2 (by simp)

theorem length_parts (key : K) :
    l.length = (smaller lt key l).length + ((equals lt key l).length + (larger lt key l).length) := by
  conv_lhs => rw [← h.parts key]
  rw [List.length_append, List.length_append]

namespace FlatMultiMap

theorem insert_eq (value : K × V) : insert lt value l =
    (smaller lt value.1 l ++ ((equals lt value.1 l ++ [value]) ++ larger lt value.1 l),
      (smaller lt value.1 l).length + (equals lt value.1 l).length) := by
  rw [insert]
  split_ifs with hfront hback
  · obtain ⟨hs, he, hl⟩ := parts_of_before ((beforeFront_iff h).mp hfront)
    rw [hs, he, hl]
    rfl
  · have hall := (getLast?_all_iff h (p := fun k => ¬lt value.1 k) fun a b hb hba ha =>
      hb (lt_of_lt_of_not_lt ha hba)).mp hback
    have hl : larger lt value.1 l = [] := List.filter_eq_nil_iff.mpr fun e he => by
      rw [decide_eq_true_iff]
      exact hall e he
    have hparts := h.parts value.1
    rw [hl, List.append_nil] at hparts
    have hlength := congrArg List.length hparts
    rw [List.length_append] at hlength
    rw [hl, List.append_nil, ← List.append_assoc, hparts, hlength]
  · simp only [getUpperBound, h.upperBound_eq]
    have hinsert := insertIdx_append_length (smaller lt value.1 l ++ equals lt value.1 l)
      (larger lt value.1 l) value
    rw [List.append_assoc, h.parts, List.length_append] at hinsert
    rw [hinsert, List.append_assoc, List.append_assoc]
    rfl

theorem removeOne_eq (key : K) : removeOne lt key l =
    some (smaller lt key l ++ ((equals lt key l).tail ++ larger lt key l),
      decide (equals lt key l ≠ [])) := by
  have hsame : equals lt key l = [] →
      smaller lt key l ++ ((equals lt key l).tail ++ larger lt key l) = l := fun hnil => by
    have hparts := h.parts key
    rw [hnil] at hparts ⊢
    exact hparts
  rw [removeOne]
  split_ifs with hout
  · have hnil := equals_nil_of_outside h hout
    rw [hsame hnil, decide_eq_false (not_not.mpr hnil)]
  · rw [Bool.or_eq_true, not_or] at hout
    obtain ⟨e, rest, hrest, hread, hkey⟩ := getLowerBound_entry h hout.2
    dsimp only
    rw [hread, Option.map_some]
    split_ifs with hlt
    · have hnil := hkey.mp hlt
      rw [hsame hnil, decide_eq_false (not_not.mpr hnil)]
    · have hne : equals lt key l ≠ [] := fun hnil => hlt (hkey.mpr hnil)
      have herase := eraseIdx_append_length (smaller lt key l) rest e
      rw [← hrest, h.parts key, ← h.lowerBound_eq key] at herase
      obtain ⟨a, as, hequals⟩ := List.exists_cons_of_ne_nil hne
      rw [hequals, List.cons_append, List.cons.injEq] at hrest
      change some (l.eraseIdx (lowerBound _ l), true) = _
      rw [herase, decide_eq_true hne, hequals, List.tail_cons, hrest.2]

theorem removeAll_eq (key : K) : removeAll lt key l =
    (smaller lt key l ++ ([] ++ larger lt key l), (equals lt key l).length) := by
  have hsame : equals lt key l = [] → smaller lt key l ++ ([] ++ larger lt key l) = l :=
    fun hnil => by
      have hparts := h.parts key
      rwa [hnil] at hparts
  rw [removeAll]
  split_ifs with hout
  · have hnil := equals_nil_of_outside h hout
    rw [hsame hnil, hnil, List.length_nil]
  · simp only [getLowerBound, getUpperBound, h.lowerBound_eq, h.upperBound_eq, Nat.left_eq_add,
      List.length_eq_zero_iff, Nat.add_sub_cancel_left]
    split_ifs with hnil
    · rw [hsame hnil, hnil, List.length_nil]
    · have htake : l.take (smaller lt key l).length = smaller lt key l := by
        have := @List.take_left _ (smaller lt key l) (equals lt key l ++ larger lt key l)
        rwa [h.parts key] at this
      have hdrop : l.drop ((smaller lt key l).length + (equals lt key l).length) =
          larger lt key l := by
        have := @List.drop_left _ (smaller lt key l ++ equals lt key l) (larger lt key l)
        rwa [List.append_assoc, h.parts key, List.length_append] at this
      rw [htake, hdrop, List.nil_append]

theorem findFirst_eq (key : K) : findFirst lt key l =
    some (if equals lt key l = [] then l.length else (smaller lt key l).length) := by
  rw [findFirst]
  split_ifs with hout hnil hnil
  · rfl
  · exact absurd (equals_nil_of_outside h hout) hnil
  all_goals
    rw [Bool.or_eq_true, not_or] at hout
    obtain ⟨e, rest, -, hread, hkey⟩ := getLowerBound_entry h hout.2
    dsimp only
    rw [hread, Option.map_some]
  · rw [if_pos (hkey.mpr hnil)]
  · rw [if_neg fun hlt => hnil (hkey.mp hlt), getLowerBound, h.lowerBound_eq]

theorem contains_eq (key : K) : contains lt key l = some (decide (equals lt key l ≠ [])) := by
  rw [contains, findFirst_eq h, Option.map_some]
  split_ifs with hnil
  · simp [hnil]
  · have hlength := length_parts h key
    have hpos := List.length_pos_iff.mpr hnil
    have hinside : (smaller lt key l).length ≠ l.length := by omega
    simp [hnil, hinside]

theorem count_eq (key : K) : count lt key l = (equals lt key l).length := by
  rw [count]
  split_ifs with hout
  · rw [equals_nil_of_outside h hout, List.length_nil]
  · rw [getUpperBound, getLowerBound, h.upperBound_eq, h.lowerBound_eq, Nat.add_sub_cancel_left]

end FlatMultiMap

namespace FlatMap

theorem place_eq (key : K) (value : K × V) : place lt key value l =
    some (smaller lt key l ++
        ((if equals lt key l = [] then [value] else equals lt key l) ++ larger lt key l),
      (smaller lt key l).length, decide (equals lt key l = [])) := by
  rw [place]
  by_cases hfront : beforeFront lt key l
  · obtain ⟨hs, he, hl⟩ := parts_of_before ((beforeFront_iff h).mp hfront)
    rw [if_pos hfront, if_pos he, hs, he, hl, decide_eq_true rfl]
    rfl
  rw [if_neg hfront]
  by_cases hback : behindBack lt key l
  · obtain ⟨hs, he, hl⟩ := parts_of_behind ((behindBack_iff h).mp hback)
    rw [if_pos hback, if_pos he, hs, he, hl, decide_eq_true rfl]
    rfl
  rw [if_neg hback]
  obtain ⟨e, rest, hrest, hread, hkey⟩ := getLowerBound_entry h hback
  dsimp only
  rw [hread, Option.map_some]
  by_cases hnil : equals lt key l = []
  · rw [if_pos (hkey.mpr hnil), if_pos hnil, decide_eq_true hnil]
    have hinsert := insertIdx_append_length (smaller lt key l) (equals lt key l ++ larger lt key l)
      value
    rw [h.parts key, ← h.lowerBound_eq key, hnil] at hinsert
    rw [getLowerBound, hinsert, h.lowerBound_eq]
    rfl
  · rw [if_neg fun hlt => hnil (hkey.mp hlt), if_neg hnil, decide_eq_false hnil, h.parts key,
      getLowerBound, h.lowerBound_eq]

end FlatMap

end Bettergram.Base
