import Bettergram.Base.FlatMapRefinement
import Bettergram.Base.FlatMultiMapRefinement

/-! # Flat maps of a range

The constructors sort the range; the order of entries with equivalent keys is
left open. A flat map then keeps the first entry for each key.
-/

namespace Bettergram.Base
open Foundation

variable {K V : Type*} {lt : K → K → Prop} [DecidableRel lt] [IsStrictWeakOrder K lt]

namespace FlatMap

omit [IsStrictWeakOrder K lt] in
theorem uniqueFrom_subset (a : K × V) (l : List (K × V)) :
    ∀ e ∈ uniqueFrom lt a l, e ∈ a :: l := by
  induction l generalizing a with
  | nil => exact fun e he => he
  | cons b l ih =>
    intro e he
    by_cases hab : ¬lt a.1 b.1
    · rw [uniqueFrom, if_pos hab] at he
      obtain rfl | he := List.mem_cons.mp (ih a e he)
      · exact List.mem_cons_self
      · exact List.mem_cons_of_mem a (List.mem_cons_of_mem b he)
    · rw [uniqueFrom, if_neg hab] at he
      obtain rfl | he := List.mem_cons.mp he
      · exact List.mem_cons_self
      · exact List.mem_cons_of_mem a (ih b e he)

theorem uniqueFrom_strictlyIncreasing (a : K × V) (l : List (K × V))
    (h : NonDecreasing lt (a :: l)) : StrictlyIncreasing lt (uniqueFrom lt a l) := by
  induction l generalizing a with
  | nil => exact List.pairwise_singleton ..
  | cons b l ih =>
    obtain ⟨ha, hbl⟩ := List.pairwise_cons.mp h
    obtain ⟨hb, hl⟩ := List.pairwise_cons.mp hbl
    by_cases hab : ¬lt a.1 b.1
    · rw [uniqueFrom, if_pos hab]
      exact ih a (List.pairwise_cons.mpr ⟨fun e he => ha e (List.mem_cons_of_mem b he), hl⟩)
    · rw [uniqueFrom, if_neg hab]
      refine List.pairwise_cons.mpr ⟨fun e he => ?_, ih b hbl⟩
      rw [not_not] at hab
      obtain rfl | he := List.mem_cons.mp (uniqueFrom_subset b l e he)
      · exact hab
      · exact lt_of_lt_of_not_lt hab (hb e he)

theorem head?_equals_uniqueFrom (key : K) (a : K × V) (l : List (K × V))
    (h : NonDecreasing lt (a :: l)) :
    (equals lt key (uniqueFrom lt a l)).head? = (equals lt key (a :: l)).head? := by
  have hcons : ∀ (a : K × V) l, (equals lt key (a :: l)).head? =
      if Equivalent lt a.1 key then some a else (equals lt key l).head? := fun a l => by
    rw [equals, List.filter_cons]
    split_ifs with hkey hkey' hkey'
    · rfl
    · exact absurd (of_decide_eq_true hkey) hkey'
    · exact absurd (decide_eq_true hkey') hkey
    · rfl
  induction l generalizing a with
  | nil => rfl
  | cons b l ih =>
    obtain ⟨ha, hbl⟩ := List.pairwise_cons.mp h
    by_cases hab : ¬lt a.1 b.1
    · rw [uniqueFrom, if_pos hab]
      have hl := (List.pairwise_cons.mp hbl).2
      have heq : Equivalent lt a.1 b.1 := ⟨hab, ha b List.mem_cons_self⟩
      rw [ih a (List.pairwise_cons.mpr ⟨fun e he => ha e (List.mem_cons_of_mem b he), hl⟩),
        hcons, hcons, hcons b]
      split_ifs with hak hbk
      · rfl
      · exact absurd (heq.trans hbk) hak
      · rfl
    · rw [uniqueFrom, if_neg hab, hcons, hcons a, ih b hbl]

/-- An entry of the range for each key that the range has. -/
def Chosen (lt : K → K → Prop) (range : List (K × V)) (m : FiniteMap K V) : Prop :=
  ∀ key, ((m key).isSome ↔ ∃ e ∈ range, Equivalent lt e.1 key) ∧
    ∀ e ∈ m key, e ∈ range ∧ Equivalent lt e.1 key

variable {sorted range : List (K × V)}

theorem finalize_strictlyIncreasing (h : NonDecreasing lt sorted) :
    StrictlyIncreasing lt (finalize lt sorted) := by
  cases sorted with
  | nil => exact List.Pairwise.nil
  | cons a l => exact uniqueFrom_strictlyIncreasing a l h

theorem finiteMap_finalize (h : NonDecreasing lt sorted) (key : K) :
    finiteMap lt (finalize lt sorted) key = (equals lt key sorted).head? := by
  cases sorted with
  | nil => rfl
  | cons a l => exact head?_equals_uniqueFrom key a l h

theorem finalize_chosen (h : NonDecreasing lt sorted) (hperm : sorted.Perm range) :
    Chosen lt range (finiteMap lt (finalize lt sorted)) := by
  have hmem : ∀ key e, e ∈ equals lt key sorted ↔ e ∈ range ∧ Equivalent lt e.1 key :=
    fun key e => by rw [mem_equals, hperm.mem_iff]
  intro key
  rw [finiteMap_finalize h]
  refine ⟨?_, fun e he => (hmem key e).mp (List.mem_of_head? he)⟩
  rw [List.isSome_head?, ← exists_congr (hmem key)]
  constructor
  · exact List.exists_mem_of_ne_nil _
  · rintro ⟨e, he⟩
    exact List.ne_nil_of_mem he

end FlatMap

variable {sorted range : List (K × V)}

/-- Flat maps and flat multi maps of a range, and all that is done to them. -/
theorem flatMaps_refine [Inhabited V] (hperm : sorted.Perm range) (hsorted : NonDecreasing lt sorted)
    (calls : List (FlatMap.Call K V)) (multiCalls : List (FlatMultiMap.Call K V)) :
    (FlatMap.Chosen lt range (FlatMap.finiteMap lt (FlatMap.finalize lt sorted)) ∧
      ∃ l answers, FlatMap.run lt calls (FlatMap.finalize lt sorted) = some (l, answers) ∧
        StrictlyIncreasing lt l ∧
        FlatMap.specifiedRun lt calls (FlatMap.finiteMap lt (FlatMap.finalize lt sorted)) =
          (FlatMap.finiteMap lt l, answers)) ∧
      ∃ l log answers, FlatMultiMap.run lt multiCalls sorted = some (l, answers) ∧
        FlatMultiMap.specifiedRun lt multiCalls sorted = (log, answers) ∧
        NonDecreasing lt l ∧ l.Perm log ∧ ∀ key, equals lt key l = equals lt key log := by
  refine ⟨⟨FlatMap.finalize_chosen hsorted hperm,
    FlatMap.run_refines (FlatMap.finalize_strictlyIncreasing hsorted) calls⟩, ?_⟩
  obtain ⟨l, hrun, hsorts⟩ :=
    FlatMultiMap.run_refines (FlatMultiMap.Sorts.of_sorted hsorted) multiCalls
  exact ⟨l, _, _, hrun, rfl, hsorts.1, hsorts.perm, hsorts.2⟩

def twoCalls : List (FlatMap.Call ℕ ℕ) := [.subscript 5 (· + 7), .take 2]

def twoMultiCalls : List (FlatMultiMap.Call ℕ ℕ) := [.insert (1, 40), .removeOne 2]

theorem flatMaps_refine_twice :
    (FlatMap.Chosen (· < ·) [(2, 10), (1, 20), (2, 30)]
        (FlatMap.finiteMap (· < ·) (FlatMap.finalize (· < ·) [(1, 20), (2, 30), (2, 10)])) ∧
      ∃ l answers, FlatMap.run (· < ·) twoCalls
          (FlatMap.finalize (· < ·) [(1, 20), (2, 30), (2, 10)]) = some (l, answers) ∧
        StrictlyIncreasing (· < ·) l ∧
        FlatMap.specifiedRun (· < ·) twoCalls
          (FlatMap.finiteMap (· < ·) (FlatMap.finalize (· < ·) [(1, 20), (2, 30), (2, 10)])) =
          (FlatMap.finiteMap (· < ·) l, answers)) ∧
      ∃ l log answers, FlatMultiMap.run (· < ·) twoMultiCalls [(1, 20), (2, 30), (2, 10)] =
          some (l, answers) ∧
        FlatMultiMap.specifiedRun (· < ·) twoMultiCalls [(1, 20), (2, 30), (2, 10)] =
          (log, answers) ∧
        NonDecreasing (· < ·) l ∧ l.Perm log ∧
          ∀ key, equals (· < ·) key l = equals (· < ·) key log :=
  flatMaps_refine (by decide) (show List.Pairwise (fun a b : ℕ × ℕ => ¬b.1 < a.1) _ by decide)
    twoCalls twoMultiCalls

end Bettergram.Base
