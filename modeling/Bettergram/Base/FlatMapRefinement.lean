import Bettergram.Base.FlatMap
import Mathlib.Data.Set.Card

/-! # Flat maps are finite maps

A flat map is a map from the classes of keys to entries, and a position is the
number of entries with smaller keys. A flat multi map keeps a list of entries
for each class, in the order they came.
-/

namespace Bettergram.Base
open Foundation

variable {K V : Type*} (lt : K → K → Prop)

/-! ## Finite maps -/

/-- The entry for each key, the same for equivalent keys. -/
abbrev FiniteMap (K V : Type*) := K → Option (K × V)

namespace FiniteMap

noncomputable def rank (key : K) (m : FiniteMap K V) : ℕ :=
  {e : K × V | m e.1 = some e ∧ lt e.1 key}.ncard

noncomputable def size (m : FiniteMap K V) : ℕ := {e : K × V | m e.1 = some e}.ncard

variable [DecidableRel lt]

def put (key : K) (entry : Option (K × V)) (m : FiniteMap K V) : FiniteMap K V :=
  fun j => if Equivalent lt key j then entry else m j

end FiniteMap

namespace FlatMap

inductive Call (K V : Type*)
  | insert (value : K × V)
  | emplace (key : K) (value : V)
  | tryEmplace (key : K) (value : V)
  | subscript (key : K) (action : V → V)
  | find (key : K)
  | contains (key : K)
  | remove (key : K)
  | erase (key : K)
  | take (key : K)

inductive Answer (V : Type*)
  | placed (position : ℕ) (inserted : Bool)
  | found (position : ℕ)
  | contained (flag : Bool)
  | removed (flag : Bool)
  | erased (number : ℕ)
  | taken (value : Option V)

variable [DecidableRel lt] [Inhabited V]

def step (l : List (K × V)) : Call K V → Option (List (K × V) × Answer V)
  | .insert value => (insert lt value l).map fun (l, place, flag) => (l, .placed place flag)
  | .emplace key value => (emplace lt key value l).map fun (l, place, flag) => (l, .placed place flag)
  | .tryEmplace key value =>
    (tryEmplace lt key value l).map fun (l, place, flag) => (l, .placed place flag)
  | .subscript key action => (subscript lt key action l).map fun (l, place) => (l, .found place)
  | .find key => (find lt key l).map fun place => (l, .found place)
  | .contains key => (FlatMultiMap.contains lt key l).map fun flag => (l, .contained flag)
  | .remove key => (remove lt key l).map fun (l, flag) => (l, .removed flag)
  | .erase key => let (l, number) := erase lt key l; some (l, .erased number)
  | .take key => (take lt key l).map fun (l, value) => (l, .taken value)

/-- What the call does to a finite map. -/
noncomputable def specified (m : FiniteMap K V) : Call K V → FiniteMap K V × Answer V
  | .insert value =>
    (m.put lt value.1 ((m value.1).or (some value)),
      .placed (m.rank lt value.1) (m value.1).isNone)
  | .emplace key value | .tryEmplace key value =>
    (m.put lt key ((m key).or (some (key, value))), .placed (m.rank lt key) (m key).isNone)
  | .subscript key action =>
    let e := (m key).getD (key, default)
    (m.put lt key (some (e.1, action e.2)), .found (m.rank lt key))
  | .find key => (m, .found (if (m key).isSome then m.rank lt key else m.size))
  | .contains key => (m, .contained (m key).isSome)
  | .remove key => (m.put lt key none, .removed (m key).isSome)
  | .erase key => (m.put lt key none, .erased (if (m key).isSome then 1 else 0))
  | .take key => (m.put lt key none, .taken ((m key).map Prod.snd))

def run : List (Call K V) → List (K × V) → Option (List (K × V) × List (Answer V))
  | [], l => some (l, [])
  | call :: calls, l =>
    (step lt l call).bind fun (l, answer) =>
      (run calls l).map fun (l, answers) => (l, answer :: answers)

noncomputable def specifiedRun : List (Call K V) → FiniteMap K V → FiniteMap K V × List (Answer V)
  | [], m => (m, [])
  | call :: calls, m =>
    let (m, answer) := specified lt m call
    let (m, answers) := specifiedRun calls m
    (m, answer :: answers)

/-- The finite map the entries stand for. -/
def finiteMap (l : List (K × V)) : FiniteMap K V := fun key => (equals lt key l).head?

end FlatMap

/-! ## The classes of a flat map -/

variable {lt} [DecidableRel lt] {l : List (K × V)} {key : K}

theorem nonDecreasing_classes [IsStrictWeakOrder K lt] :
    StrictlyIncreasing lt l ↔ NonDecreasing lt l ∧ ∀ key, (equals lt key l).length ≤ 1 := by
  constructor
  · intro h
    refine ⟨h.nonDecreasing, fun key => ?_⟩
    have hsub : StrictlyIncreasing lt (equals lt key l) := List.Pairwise.sublist List.filter_sublist h
    cases hequals : equals lt key l with
    | nil => simp
    | cons a as =>
      cases as with
      | nil => simp
      | cons b bs =>
        rw [hequals] at hsub
        have hab := (List.pairwise_cons.mp hsub).1 b List.mem_cons_self
        have ha : a ∈ equals lt key l := hequals ▸ List.mem_cons_self
        have hb : b ∈ equals lt key l := hequals ▸ List.mem_cons_of_mem a List.mem_cons_self
        exact absurd hab ((mem_equals.mp ha).2.trans (mem_equals.mp hb).2.symm).1
  · rintro ⟨h, hone⟩
    refine List.pairwise_iff_forall_sublist.mpr fun {a b} hsub => ?_
    by_contra hab
    have hba : ¬lt b.1 a.1 := List.pairwise_iff_forall_sublist.mp h hsub
    have hboth : equals lt a.1 [a, b] = [a, b] := equals_eq_self fun e he => by
      obtain rfl | he := List.mem_cons.mp he
      · exact Equivalent.refl _
      · obtain rfl := List.mem_singleton.mp he
        exact ⟨hba, hab⟩
    have hlength := (hsub.filter fun e => Equivalent lt e.1 a.1).length_le
    change (equals lt a.1 [a, b]).length ≤ (equals lt a.1 l).length at hlength
    rw [hboth] at hlength
    exact absurd (hlength.trans (hone a.1)) (by simp)

theorem ncard_mem {α : Type*} {l : List α} (h : l.Nodup) : {a | a ∈ l}.ncard = l.length := by
  classical
  have hset : {a | a ∈ l} = ↑l.toFinset := by
    ext a
    simp
  rw [hset, Set.ncard_coe_finset, List.toFinset_card_of_nodup h]

theorem modify_append_cons {α : Type*} (f : α → α) (l l' : List α) (a : α) :
    (l ++ a :: l').modify l.length f = l ++ f a :: l' := by
  induction l with
  | nil => rfl
  | cons b l ih =>
    rw [List.cons_append, List.length_cons, List.modify_succ_cons, ih]
    rfl

namespace FlatMap

variable [IsStrictWeakOrder K lt]

theorem equals_cases (h : StrictlyIncreasing lt l) (key : K) :
    equals lt key l = [] ∧ finiteMap lt l key = none ∨
      ∃ e, equals lt key l = [e] ∧ finiteMap lt l key = some e := by
  have hone := (nonDecreasing_classes.mp h).2 key
  rw [finiteMap]
  cases hequals : equals lt key l with
  | nil => exact .inl ⟨rfl, rfl⟩
  | cons a as =>
    rw [hequals, List.length_cons] at hone
    obtain rfl : as = [] := List.length_eq_zero_iff.mp (by omega)
    exact .inr ⟨a, rfl, rfl⟩

theorem finiteMap_self (h : StrictlyIncreasing lt l) (e : K × V) :
    finiteMap lt l e.1 = some e ↔ e ∈ l := by
  constructor
  · intro hsome
    exact (mem_equals.mp (List.mem_of_head? hsome)).1
  · intro he
    have hmem : e ∈ equals lt e.1 l := mem_equals.mpr ⟨he, Equivalent.refl _⟩
    obtain ⟨hnil, -⟩ | ⟨e', hequals, hsome⟩ := equals_cases h e.1
    · rw [hnil] at hmem
      exact absurd hmem (by simp)
    · rw [hequals] at hmem
      rw [hsome, List.mem_singleton.mp hmem]

omit [DecidableRel lt] in
theorem nodup (h : StrictlyIncreasing lt l) : l.Nodup := by
  refine List.Pairwise.imp ?_ (show l.Pairwise fun a b => lt a.1 b.1 from h)
  rintro a b hab rfl
  exact irrefl_of lt a.1 hab

theorem rank_finiteMap (h : StrictlyIncreasing lt l) (key : K) :
    (finiteMap lt l).rank lt key = (smaller lt key l).length := by
  have hset : {e : K × V | finiteMap lt l e.1 = some e ∧ lt e.1 key} =
      {e | e ∈ smaller lt key l} := by
    ext e
    exact (and_congr_left fun _ => finiteMap_self h e).trans mem_smaller.symm
  have hnodup : (smaller lt key l).Nodup := (nodup h).filter _
  rw [FiniteMap.rank, hset, ncard_mem hnodup]

theorem size_finiteMap (h : StrictlyIncreasing lt l) : (finiteMap lt l).size = l.length := by
  have hset : {e : K × V | finiteMap lt l e.1 = some e} = {e | e ∈ l} := by
    ext e
    exact finiteMap_self h e
  rw [FiniteMap.size, hset, ncard_mem (nodup h)]

/-- At most one entry stands between the smaller and the larger ones. -/
theorem replace_refines (h : StrictlyIncreasing lt l) {between : List (K × V)}
    (hbetween : ∀ e ∈ between, Equivalent lt e.1 key) (hone : between.length ≤ 1) :
    StrictlyIncreasing lt (smaller lt key l ++ (between ++ larger lt key l)) ∧
      finiteMap lt (smaller lt key l ++ (between ++ larger lt key l)) =
        (finiteMap lt l).put lt key between.head? := by
  have hsorted := h.nonDecreasing
  constructor
  · refine nonDecreasing_classes.mpr ⟨hsorted.replace key hbetween, fun j => ?_⟩
    rw [hsorted.equals_replace hbetween]
    split_ifs
    · exact hone
    · exact (nonDecreasing_classes.mp h).2 j
  · funext j
    rw [finiteMap, hsorted.equals_replace hbetween, FiniteMap.put]
    split_ifs
    · rfl
    · rfl

theorem find_refines (h : StrictlyIncreasing lt l) (key : K) : find lt key l =
    some (if (finiteMap lt l key).isSome then (finiteMap lt l).rank lt key
      else (finiteMap lt l).size) := by
  rw [find, FlatMultiMap.findFirst_eq h.nonDecreasing, rank_finiteMap h, size_finiteMap h]
  obtain ⟨hnil, hnone⟩ | ⟨e, hequals, hsome⟩ := equals_cases h key
  · rw [if_pos hnil, hnone]
    rfl
  · rw [if_neg (by simp [hequals]), hsome]
    rfl

theorem take_refines (h : StrictlyIncreasing lt l) (key : K) : take lt key l =
    some (smaller lt key l ++ ([] ++ larger lt key l), (finiteMap lt l key).map Prod.snd) := by
  have hparts := h.nonDecreasing.parts key
  rw [take, find, FlatMultiMap.findFirst_eq h.nonDecreasing, Option.bind_some]
  obtain ⟨hnil, hnone⟩ | ⟨e, hequals, hsome⟩ := equals_cases h key
  · rw [if_pos hnil, if_pos rfl, hnone]
    rw [hnil] at hparts
    rw [hparts]
    rfl
  · rw [hequals] at hparts
    have hread := getElem?_append_cons_length (smaller lt key l) (larger lt key l) e
    have herase := eraseIdx_append_length (smaller lt key l) (larger lt key l) e
    have hlength := length_parts h.nonDecreasing key
    rw [hequals, List.length_singleton] at hlength
    have hne : equals lt key l ≠ [] := by simp [hequals]
    have hinside : (smaller lt key l).length ≠ l.length := by omega
    rw [List.singleton_append] at hparts
    rw [hparts] at hread herase
    rw [if_neg hne, if_neg hinside, hread, Option.map_some, herase, hsome]
    rfl

theorem place_refines (h : StrictlyIncreasing lt l) (value : K × V) :
    ∃ l', place lt value.1 value l =
        some (l', (finiteMap lt l).rank lt value.1, (finiteMap lt l value.1).isNone) ∧
      StrictlyIncreasing lt l' ∧ finiteMap lt l' =
        (finiteMap lt l).put lt value.1 ((finiteMap lt l value.1).or (some value)) := by
  rw [place_eq h.nonDecreasing, rank_finiteMap h]
  obtain ⟨hnil, hnone⟩ | ⟨e, hequals, hsome⟩ := equals_cases h value.1
  · have hself : ∀ e ∈ [value], Equivalent lt e.1 value.1 := fun e he =>
      List.mem_singleton.mp he ▸ Equivalent.refl _
    obtain ⟨hsorted, hmap⟩ := replace_refines h hself (by simp)
    refine ⟨_, ?_, hsorted, ?_⟩
    · rw [if_pos hnil, decide_eq_true hnil, hnone, Option.isNone_none]
    · rw [hmap, hnone]
      rfl
  · have hne : equals lt value.1 l ≠ [] := by simp [hequals]
    refine ⟨l, ?_, h, ?_⟩
    · rw [if_neg hne, decide_eq_false hne, h.nonDecreasing.parts, hsome, Option.isNone_some]
    · funext j
      rw [hsome, Option.some_or, FiniteMap.put]
      split_ifs with hj
      · rw [← hsome, finiteMap, finiteMap, equals_congr hj]
      · rfl

theorem remove_refines (h : StrictlyIncreasing lt l) (key : K) :
    StrictlyIncreasing lt (smaller lt key l ++ ([] ++ larger lt key l)) ∧
      finiteMap lt (smaller lt key l ++ ([] ++ larger lt key l)) =
        (finiteMap lt l).put lt key none :=
  replace_refines h (by simp) (by simp)

variable [Inhabited V]

variable (lt) in
/-- A call leaves the entries sorted and does what it does to the finite map. -/
def Refines (l : List (K × V)) (call : Call K V) (result : List (K × V) × Answer V) : Prop :=
  StrictlyIncreasing lt result.1 ∧
    specified lt (finiteMap lt l) call = (finiteMap lt result.1, result.2)

theorem subscript_refines (h : StrictlyIncreasing lt l) (key : K) (action : V → V) :
    ∃ l', subscript lt key action l = some (l', (finiteMap lt l).rank lt key) ∧
      StrictlyIncreasing lt l' ∧ finiteMap lt l' = (finiteMap lt l).put lt key
        (some (((finiteMap lt l key).getD (key, default)).1,
          action ((finiteMap lt l key).getD (key, default)).2)) := by
  have hplaced : ∃ e, Equivalent lt e.1 key ∧ (finiteMap lt l key).getD (key, default) = e ∧
      (if equals lt key l = [] then [(key, default)] else equals lt key l) = [e] := by
    obtain ⟨hnil, hnone⟩ | ⟨e, hequals, hsome⟩ := equals_cases h key
    · exact ⟨_, Equivalent.refl key, by rw [hnone]; rfl, if_pos hnil⟩
    · have he : e ∈ equals lt key l := hequals ▸ List.mem_singleton_self e
      have hne : equals lt key l ≠ [] := by simp [hequals]
      exact ⟨e, (mem_equals.mp he).2, by rw [hsome]; rfl, by rw [if_neg hne, hequals]⟩
  obtain ⟨e, he, hget, hbetween⟩ := hplaced
  have hself : ∀ e' ∈ [(e.1, action e.2)], Equivalent lt e'.1 key := fun e' he' =>
    List.mem_singleton.mp he' ▸ he
  obtain ⟨hsorted, hmap⟩ := replace_refines h hself (by simp)
  refine ⟨_, ?_, hsorted, by rw [hmap, hget]; rfl⟩
  rw [subscript, place_eq h.nonDecreasing, hbetween, rank_finiteMap h, Option.map_some]
  dsimp only
  rw [List.singleton_append, List.singleton_append, modify_append_cons]

theorem step_refines (h : StrictlyIncreasing lt l) (call : Call K V) :
    ∃ result, step lt l call = some result ∧ Refines lt l call result := by
  have hplace : ∀ value : K × V, ∃ l', place lt value.1 value l =
      some (l', (finiteMap lt l).rank lt value.1, (finiteMap lt l value.1).isNone) ∧
      StrictlyIncreasing lt l' ∧ finiteMap lt l' =
        (finiteMap lt l).put lt value.1 ((finiteMap lt l value.1).or (some value)) :=
    place_refines h
  have hremoved := remove_refines h
  cases call with
  | insert value =>
    obtain ⟨l', hl', hsorted, hmap⟩ := hplace value
    exact ⟨_, by rw [step, insert, hl']; rfl, hsorted, by rw [specified, hmap]⟩
  | emplace key value =>
    obtain ⟨l', hl', hsorted, hmap⟩ := hplace (key, value)
    exact ⟨_, by rw [step, emplace, insert, hl']; rfl, hsorted, by rw [specified, hmap]⟩
  | tryEmplace key value =>
    obtain ⟨l', hl', hsorted, hmap⟩ := hplace (key, value)
    exact ⟨_, by rw [step, tryEmplace, hl']; rfl, hsorted, by rw [specified, hmap]⟩
  | subscript key action =>
    obtain ⟨l', hl', hsorted, hmap⟩ := subscript_refines h key action
    exact ⟨_, by rw [step, hl']; rfl, hsorted, by rw [specified, hmap]⟩
  | find key => exact ⟨_, by rw [step, find_refines h]; rfl, h, by rw [specified]⟩
  | contains key =>
    refine ⟨_, by rw [step, FlatMultiMap.contains_eq h.nonDecreasing]; rfl, h, ?_⟩
    obtain ⟨hnil, hnone⟩ | ⟨e, hequals, hsome⟩ := equals_cases h key
    · rw [specified, hnone, hnil]
      rfl
    · rw [specified, hsome, hequals]
      rfl
  | remove key =>
    obtain ⟨hsorted, hmap⟩ := hremoved key
    obtain ⟨hnil, hnone⟩ | ⟨e, hequals, hsome⟩ := equals_cases h key
    · refine ⟨_, by rw [step, remove, FlatMultiMap.removeOne_eq h.nonDecreasing, hnil]; rfl,
        hsorted, ?_⟩
      rw [specified, ← hmap, hnone]
      rfl
    · refine ⟨_, by rw [step, remove, FlatMultiMap.removeOne_eq h.nonDecreasing, hequals]; rfl,
        hsorted, ?_⟩
      rw [specified, ← hmap, hsome]
      rfl
  | erase key =>
    obtain ⟨hsorted, hmap⟩ := hremoved key
    obtain ⟨hnil, hnone⟩ | ⟨e, hequals, hsome⟩ := equals_cases h key
    · refine ⟨_, by rw [step, erase, FlatMultiMap.removeAll_eq h.nonDecreasing, hnil], hsorted, ?_⟩
      rw [specified, ← hmap, hnone]
      rfl
    · refine ⟨_, by rw [step, erase, FlatMultiMap.removeAll_eq h.nonDecreasing, hequals], hsorted,
        ?_⟩
      rw [specified, ← hmap, hsome]
      rfl
  | take key =>
    obtain ⟨hsorted, hmap⟩ := hremoved key
    exact ⟨_, by rw [step, take_refines h]; rfl, hsorted, by rw [specified, hmap]⟩

theorem run_refines (h : StrictlyIncreasing lt l) (calls : List (Call K V)) :
    ∃ l' answers, run lt calls l = some (l', answers) ∧ StrictlyIncreasing lt l' ∧
      specifiedRun lt calls (finiteMap lt l) = (finiteMap lt l', answers) := by
  induction calls generalizing l with
  | nil => exact ⟨l, [], rfl, h, rfl⟩
  | cons call calls ih =>
    obtain ⟨⟨l₁, answer⟩, hstep, hsorted, hspec⟩ := step_refines h call
    obtain ⟨l', answers, hrun, hsorted', hspecRun⟩ := ih hsorted
    refine ⟨l', answer :: answers, ?_, hsorted', ?_⟩
    · rw [run, hstep, Option.bind_some]
      dsimp only
      rw [hrun]
      rfl
    · rw [specifiedRun, hspec]
      dsimp only
      rw [hspecRun]

end FlatMap

end Bettergram.Base
