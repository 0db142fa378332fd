import Bettergram.Base.FlatMap
import Mathlib.Data.List.Count

/-! # Flat multi maps keep every entry

A flat multi map is a log of entries in the order they came, sorted by key.
-/

namespace Bettergram.Base
open Foundation

variable {K V : Type*} (lt : K → K → Prop) [DecidableRel lt]

namespace FlatMultiMap

inductive Call (K V : Type*)
  | insert (value : K × V)
  | emplace (key : K) (value : V)
  | findFirst (key : K)
  | contains (key : K)
  | count (key : K)
  | removeOne (key : K)
  | removeAll (key : K)

inductive Answer
  | placed (position : ℕ)
  | contained (flag : Bool)
  | removed (flag : Bool)
  | counted (number : ℕ)
  deriving DecidableEq

def step (l : List (K × V)) : Call K V → Option (List (K × V) × Answer)
  | .insert value => let (l, place) := insert lt value l; some (l, .placed place)
  | .emplace key value => let (l, place) := emplace lt key value l; some (l, .placed place)
  | .findFirst key => (findFirst lt key l).map fun place => (l, .placed place)
  | .contains key => (contains lt key l).map fun flag => (l, .contained flag)
  | .count key => some (l, .counted (count lt key l))
  | .removeOne key => (removeOne lt key l).map fun (l, flag) => (l, .removed flag)
  | .removeAll key => let (l, number) := removeAll lt key l; some (l, .counted number)

/-! ## Logs -/

def numberOfSmaller (key : K) (log : List (K × V)) : ℕ := log.countP fun e => lt e.1 key

def numberOfEquals (key : K) (log : List (K × V)) : ℕ := log.countP fun e => Equivalent lt e.1 key

/-- What the call does to the log. An entry is put behind all entries with its key. -/
def specified (log : List (K × V)) : Call K V → List (K × V) × Answer
  | .insert value =>
    (log ++ [value], .placed (numberOfSmaller lt value.1 log + numberOfEquals lt value.1 log))
  | .emplace key value =>
    (log ++ [(key, value)], .placed (numberOfSmaller lt key log + numberOfEquals lt key log))
  | .findFirst key =>
    (log, .placed (if numberOfEquals lt key log = 0 then log.length else numberOfSmaller lt key log))
  | .contains key => (log, .contained (numberOfEquals lt key log ≠ 0))
  | .count key => (log, .counted (numberOfEquals lt key log))
  | .removeOne key =>
    (log.eraseP fun e => Equivalent lt e.1 key, .removed (numberOfEquals lt key log ≠ 0))
  | .removeAll key =>
    (log.filter fun e => ¬Equivalent lt e.1 key, .counted (numberOfEquals lt key log))

/-- Sorted by key, and in the order of the log for each key. -/
def Sorts (log l : List (K × V)) : Prop :=
  NonDecreasing lt l ∧ ∀ key, equals lt key l = equals lt key log

def run : List (Call K V) → List (K × V) → Option (List (K × V) × List Answer)
  | [], l => some (l, [])
  | call :: calls, l =>
    (step lt l call).bind fun (l, answer) =>
      (run calls l).map fun (l, answers) => (l, answer :: answers)

def specifiedRun : List (Call K V) → List (K × V) → List (K × V) × List Answer
  | [], log => (log, [])
  | call :: calls, log =>
    let (log, answer) := specified lt log call
    let (log, answers) := specifiedRun calls log
    (log, answer :: answers)

end FlatMultiMap

theorem filter_eraseP_self {α : Type*} (p : α → Bool) (l : List α) :
    (l.eraseP p).filter p = (l.filter p).tail := by
  induction l with
  | nil => rfl
  | cons a l ih =>
    cases ha : p a with
    | true => rw [List.eraseP_cons_of_pos ha, List.filter_cons_of_pos ha, List.tail_cons]
    | false =>
      rw [List.eraseP_cons_of_neg (by simp [ha]), List.filter_cons_of_neg (by simp [ha]),
        List.filter_cons_of_neg (by simp [ha]), ih]

theorem filter_eraseP_of_disjoint {α : Type*} {p q : α → Bool} (h : ∀ a, p a → q a = false)
    (l : List α) : (l.eraseP p).filter q = l.filter q := by
  induction l with
  | nil => rfl
  | cons a l ih =>
    cases ha : p a with
    | true => rw [List.eraseP_cons_of_pos ha, List.filter_cons_of_neg (by simp [h a ha])]
    | false => rw [List.eraseP_cons_of_neg (by simp [ha]), List.filter_cons, List.filter_cons, ih]

namespace FlatMultiMap

variable {lt} [IsStrictWeakOrder K lt] {log l : List (K × V)} {key : K}

namespace Sorts

omit [IsStrictWeakOrder K lt] in
theorem of_sorted (h : NonDecreasing lt l) : Sorts lt l l := ⟨h, fun _ => rfl⟩

/-- No entry is lost, and none is added. -/
theorem perm (h : Sorts lt log l) : l.Perm log := by
  classical
  refine List.perm_iff_count.mpr fun e => ?_
  have hself : decide (Equivalent lt e.1 e.1) = true := decide_eq_true (Equivalent.refl e.1)
  rw [← List.count_filter (p := fun e' : K × V => decide (Equivalent lt e'.1 e.1)) hself,
    ← List.count_filter (p := fun e' : K × V => decide (Equivalent lt e'.1 e.1)) (l := log) hself]
  exact congrArg (List.count e) (h.2 e.1)

theorem length_smaller (h : Sorts lt log l) (key : K) :
    (smaller lt key l).length = numberOfSmaller lt key log := by
  rw [smaller, ← List.countP_eq_length_filter]
  exact h.perm.countP_eq _

omit [IsStrictWeakOrder K lt] in
theorem length_equals (h : Sorts lt log l) (key : K) :
    (equals lt key l).length = numberOfEquals lt key log := by
  rw [h.2, equals, ← List.countP_eq_length_filter]
  rfl

omit [IsStrictWeakOrder K lt] in
theorem equals_eq_nil_iff (h : Sorts lt log l) (key : K) :
    equals lt key l = [] ↔ numberOfEquals lt key log = 0 := by
  rw [← h.length_equals, List.length_eq_zero_iff]

/-- The entries with one key may be replaced when the log changes in the same way. -/
theorem replace (h : Sorts lt log l) {between log' : List (K × V)}
    (hbetween : equals lt key log' = between)
    (hothers : ∀ j, ¬Equivalent lt key j → equals lt j log' = equals lt j log) :
    Sorts lt log' (smaller lt key l ++ (between ++ larger lt key l)) := by
  have hself : ∀ e ∈ between, Equivalent lt e.1 key := fun e he =>
    (mem_equals.mp (hbetween ▸ he)).2
  refine ⟨h.1.replace key hself, fun j => ?_⟩
  rw [h.1.equals_replace hself]
  split_ifs with hj
  · rw [← hbetween, equals_congr hj]
  · rw [hothers j hj, h.2]

theorem insert (h : Sorts lt log l) (value : K × V) : Sorts lt (log ++ [value])
    (smaller lt value.1 l ++ ((equals lt value.1 l ++ [value]) ++ larger lt value.1 l)) := by
  refine h.replace ?_ fun j hj => ?_
  · rw [equals_append, h.2, equals_eq_self (l := [value]) fun e he => ?_]
    obtain rfl := List.mem_singleton.mp he
    exact Equivalent.refl _
  · rw [equals_append, equals_eq_nil (l := [value]) fun e he => ?_, List.append_nil]
    obtain rfl := List.mem_singleton.mp he
    exact hj

theorem removeOne (h : Sorts lt log l) (key : K) :
    Sorts lt (log.eraseP fun e => Equivalent lt e.1 key)
      (smaller lt key l ++ ((equals lt key l).tail ++ larger lt key l)) := by
  refine h.replace ?_ fun j hj => ?_
  · rw [h.2]
    exact filter_eraseP_self ..
  · refine filter_eraseP_of_disjoint (fun e he => ?_) log
    rw [decide_eq_false_iff_not]
    exact fun hej => hj ((of_decide_eq_true he).symm.trans hej)

theorem removeAll (h : Sorts lt log l) (key : K) :
    Sorts lt (log.filter fun e => ¬Equivalent lt e.1 key)
      (smaller lt key l ++ ([] ++ larger lt key l)) := by
  refine h.replace (equals_eq_nil fun e he => ?_) fun j hj => ?_
  · simpa using (List.mem_filter.mp he).2
  · rw [equals, equals, List.filter_filter]
    refine List.filter_congr fun e _ => ?_
    by_cases hej : Equivalent lt e.1 j
    · have hek : ¬Equivalent lt e.1 key := fun hek => hj (hek.symm.trans hej)
      simp [hej, hek]
    · simp [hej]

end Sorts

theorem step_refines (h : Sorts lt log l) (call : Call K V) :
    ∃ l', step lt l call = some (l', (specified lt log call).2) ∧
      Sorts lt (specified lt log call).1 l' := by
  cases call with
  | insert value =>
    refine ⟨_, ?_, h.insert value⟩
    rw [step, insert_eq h.1, h.length_smaller, h.length_equals]
    rfl
  | emplace key value =>
    refine ⟨_, ?_, h.insert (key, value)⟩
    rw [step, emplace, insert_eq h.1, h.length_smaller, h.length_equals]
    rfl
  | findFirst key =>
    refine ⟨l, ?_, h⟩
    rw [step, findFirst_eq h.1, h.length_smaller, h.perm.length_eq]
    simp only [h.equals_eq_nil_iff]
    rfl
  | contains key =>
    refine ⟨l, ?_, h⟩
    rw [step, contains_eq h.1]
    simp only [ne_eq, h.equals_eq_nil_iff]
    rfl
  | count key =>
    refine ⟨l, ?_, h⟩
    rw [step, count_eq h.1, h.length_equals]
    rfl
  | removeOne key =>
    refine ⟨_, ?_, h.removeOne key⟩
    rw [step, removeOne_eq h.1]
    simp only [ne_eq, h.equals_eq_nil_iff]
    rfl
  | removeAll key =>
    refine ⟨_, ?_, h.removeAll key⟩
    rw [step, removeAll_eq h.1, h.length_equals]
    rfl

theorem run_refines (h : Sorts lt log l) (calls : List (Call K V)) :
    ∃ l', run lt calls l = some (l', (specifiedRun lt calls log).2) ∧
      Sorts lt (specifiedRun lt calls log).1 l' := by
  induction calls generalizing log l with
  | nil => exact ⟨l, rfl, h⟩
  | cons call calls ih =>
    obtain ⟨l₁, hstep, hsorts⟩ := step_refines h call
    obtain ⟨l', hrun, hsorts'⟩ := ih hsorts
    refine ⟨l', ?_, hsorts'⟩
    rw [run, hstep, Option.bind_some]
    dsimp only
    rw [hrun]
    rfl

end FlatMultiMap

end Bettergram.Base
