import Bettergram.Foundation.FlatSet
import Mathlib.Order.RelClasses
import Mathlib.Tactic.Conv

/-! # Entries sorted by key

Keys are compared by a strict weak order only; neither of two equivalent keys is
smaller. A sorted list is cut by a key in three parts: the entries before it,
those with an equivalent key, and those behind.
-/

namespace Bettergram.Foundation

variable {K V : Type*} (lt : K → K → Prop) [DecidableRel lt]

instance isStrictWeakOrder_nat : IsStrictWeakOrder ℕ (· < ·) := isStrictWeakOrder_of_isOrderConnected

/-- Neither is smaller. -/
def Equivalent (a b : K) : Prop := ¬lt a b ∧ ¬lt b a

instance (a b : K) : Decidable (Equivalent lt a b) := inferInstanceAs (Decidable (_ ∧ _))

def smaller (k : K) (l : List (K × V)) : List (K × V) := l.filter fun e => lt e.1 k

def equals (k : K) (l : List (K × V)) : List (K × V) := l.filter fun e => Equivalent lt e.1 k

def larger (k : K) (l : List (K × V)) : List (K × V) := l.filter fun e => lt k e.1

def NonDecreasing (l : List (K × V)) : Prop := l.Pairwise fun a b => ¬lt b.1 a.1

def StrictlyIncreasing (l : List (K × V)) : Prop := l.Pairwise fun a b => lt a.1 b.1

variable {lt}

omit [DecidableRel lt] in
theorem Equivalent.symm {a b : K} (h : Equivalent lt a b) : Equivalent lt b a := ⟨h.2, h.1⟩

theorem mem_smaller {k : K} {l : List (K × V)} {e : K × V} :
    e ∈ smaller lt k l ↔ e ∈ l ∧ lt e.1 k := by
  rw [smaller, List.mem_filter, decide_eq_true_iff]

theorem mem_equals {k : K} {l : List (K × V)} {e : K × V} :
    e ∈ equals lt k l ↔ e ∈ l ∧ Equivalent lt e.1 k := by
  rw [equals, List.mem_filter, decide_eq_true_iff]

theorem mem_larger {k : K} {l : List (K × V)} {e : K × V} :
    e ∈ larger lt k l ↔ e ∈ l ∧ lt k e.1 := by
  rw [larger, List.mem_filter, decide_eq_true_iff]

theorem equals_append (k : K) (l l' : List (K × V)) :
    equals lt k (l ++ l') = equals lt k l ++ equals lt k l' :=
  List.filter_append ..

theorem equals_eq_nil {k : K} {l : List (K × V)} (h : ∀ e ∈ l, ¬Equivalent lt e.1 k) :
    equals lt k l = [] :=
  List.filter_eq_nil_iff.mpr fun e he => by
    rw [decide_eq_true_iff]
    exact h e he

theorem equals_eq_self {k : K} {l : List (K × V)} (h : ∀ e ∈ l, Equivalent lt e.1 k) :
    equals lt k l = l :=
  List.filter_eq_self.mpr fun e he => decide_eq_true (h e he)

/-- A binary search ends where the condition gets lost. -/
theorem lowerBound_append {α : Type*} {p : α → Bool} {l l' : List α} (hl : ∀ a ∈ l, p a)
    (hl' : ∀ a ∈ l', p a = false) : lowerBound p (l ++ l') = l.length := by
  have hnil : l'.takeWhile p = [] := by
    cases l' with
    | nil => rfl
    | cons a l' => rw [List.takeWhile_cons_of_neg (by simp [hl' a])]
  rw [lowerBound, List.takeWhile_append_of_pos hl, hnil, List.append_nil]

variable [IsStrictWeakOrder K lt]

omit [DecidableRel lt] in
theorem lt_asymm_of_weak {a b : K} (h : lt a b) : ¬lt b a :=
  fun h' => Std.Irrefl.irrefl (r := lt) a (IsTrans.trans a b a h h')

omit [DecidableRel lt] in
theorem lt_of_not_lt_of_lt {a b c : K} (hab : ¬lt b a) (hbc : lt b c) : lt a c := by
  by_contra hac
  by_cases hca : lt c a
  · exact hab (IsTrans.trans b c a hbc hca)
  by_cases hab' : lt a b
  · exact hac (IsTrans.trans a b c hab' hbc)
  · exact (IsStrictWeakOrder.incomp_trans b a c ⟨hab, hab'⟩ ⟨hac, hca⟩).1 hbc

omit [DecidableRel lt] in
theorem lt_of_lt_of_not_lt {a b c : K} (hab : lt a b) (hbc : ¬lt c b) : lt a c := by
  by_contra hac
  by_cases hca : lt c a
  · exact hbc (IsTrans.trans c a b hca hab)
  by_cases hbc' : lt b c
  · exact hac (IsTrans.trans a b c hab hbc')
  · exact (IsStrictWeakOrder.incomp_trans a c b ⟨hac, hca⟩ ⟨hbc, hbc'⟩).1 hab

omit [DecidableRel lt] in
theorem Equivalent.refl (a : K) : Equivalent lt a a :=
  ⟨Std.Irrefl.irrefl (r := lt) a, Std.Irrefl.irrefl (r := lt) a⟩

omit [DecidableRel lt] in
theorem Equivalent.trans {a b c : K} (h : Equivalent lt a b) (h' : Equivalent lt b c) :
    Equivalent lt a c :=
  IsStrictWeakOrder.incomp_trans a b c h h'

omit [DecidableRel lt] in
theorem Equivalent.lt_iff {a b : K} (h : Equivalent lt a b) (c : K) : lt a c ↔ lt b c :=
  ⟨lt_of_not_lt_of_lt h.1, lt_of_not_lt_of_lt h.2⟩

omit [DecidableRel lt] in
theorem Equivalent.gt_iff {a b : K} (h : Equivalent lt a b) (c : K) : lt c a ↔ lt c b :=
  ⟨fun hc => lt_of_lt_of_not_lt hc h.2, fun hc => lt_of_lt_of_not_lt hc h.1⟩

theorem equals_congr {k k' : K} (h : Equivalent lt k k') (l : List (K × V)) :
    equals lt k l = equals lt k' l := by
  refine List.filter_congr fun e _ => ?_
  rw [decide_eq_decide]
  exact ⟨fun he => he.trans h, fun he => he.trans h.symm⟩

omit [DecidableRel lt] in
theorem StrictlyIncreasing.nonDecreasing {l : List (K × V)} (h : StrictlyIncreasing lt l) :
    NonDecreasing lt l :=
  h.imp lt_asymm_of_weak

/-- The three parts are the whole list in order. -/
theorem NonDecreasing.parts {l : List (K × V)} (h : NonDecreasing lt l) (k : K) :
    smaller lt k l ++ (equals lt k l ++ larger lt k l) = l := by
  induction l with
  | nil => rfl
  | cons a l ih =>
    obtain ⟨ha, hl⟩ := List.pairwise_cons.mp h
    have hrest := ih hl
    have hnot : ∀ e ∈ l, ∀ c, lt e.1 c → lt a.1 c := fun e he c hc => lt_of_not_lt_of_lt (ha e he) hc
    by_cases hak : lt a.1 k
    · have hka := lt_asymm_of_weak hak
      simp only [smaller, equals, larger, Equivalent, List.filter_cons, hak, hka, decide_true,
        decide_false, not_true, not_false_eq_true, and_true, if_true, if_false,
        Bool.false_eq_true, List.cons_append, List.cons.injEq, true_and] at hrest ⊢
      exact hrest
    · have hnil : smaller lt k l = [] := List.filter_eq_nil_iff.mpr fun e he => by
        rw [decide_eq_true_iff]
        exact fun hc => hak (hnot e he k hc)
      have hnil' : smaller lt k (a :: l) = [] := by
        rw [smaller, List.filter_cons_of_neg (by simpa using hak)]
        exact hnil
      rw [hnil, List.nil_append] at hrest
      rw [hnil', List.nil_append]
      by_cases hka : lt k a.1
      · have hequals : equals lt k (a :: l) = [] := equals_eq_nil fun e he => by
          rintro ⟨-, hke⟩
          obtain rfl | he := List.mem_cons.mp he
          · exact hke hka
          · exact hke (lt_of_lt_of_not_lt hka (ha e he))
        have hlarger : larger lt k (a :: l) = a :: l := List.filter_eq_self.mpr fun e he => by
          rw [decide_eq_true_iff]
          obtain rfl | he := List.mem_cons.mp he
          · exact hka
          · exact lt_of_lt_of_not_lt hka (ha e he)
        rw [hequals, hlarger, List.nil_append]
      · have hequals : equals lt k (a :: l) = a :: equals lt k l := by
          have heq : Equivalent lt a.1 k := ⟨hak, hka⟩
          rw [equals, List.filter_cons_of_pos (by simpa using heq)]
          rfl
        have hlarger : larger lt k (a :: l) = larger lt k l := by
          rw [larger, List.filter_cons_of_neg (by simpa using hka)]
          rfl
        rw [hequals, hlarger, List.cons_append, hrest]

/-- Where a search for the key ends. -/
theorem NonDecreasing.lowerBound_eq {l : List (K × V)} (h : NonDecreasing lt l) (k : K) :
    lowerBound (fun e => decide (lt e.1 k)) l = (smaller lt k l).length := by
  conv_lhs => rw [← h.parts k]
  refine lowerBound_append (fun e he => decide_eq_true (mem_smaller.mp he).2) fun e he => ?_
  rw [decide_eq_false_iff_not]
  obtain he | he := List.mem_append.mp he
  · exact (mem_equals.mp he).2.1
  · exact lt_asymm_of_weak (mem_larger.mp he).2

theorem NonDecreasing.upperBound_eq {l : List (K × V)} (h : NonDecreasing lt l) (k : K) :
    lowerBound (fun e => !decide (lt k e.1)) l =
      (smaller lt k l).length + (equals lt k l).length := by
  conv_lhs => rw [← h.parts k, ← List.append_assoc]
  rw [lowerBound_append, List.length_append]
  · intro e he
    rw [Bool.not_eq_true', decide_eq_false_iff_not]
    obtain he | he := List.mem_append.mp he
    · exact lt_asymm_of_weak (mem_smaller.mp he).2
    · exact (mem_equals.mp he).2.2
  · intro e he
    rw [Bool.not_eq_false', decide_eq_true_iff]
    exact (mem_larger.mp he).2

/-- Entries with equivalent keys may stand between the smaller and the larger ones. -/
theorem NonDecreasing.replace {l between : List (K × V)} (h : NonDecreasing lt l) (k : K)
    (hbetween : ∀ e ∈ between, Equivalent lt e.1 k) :
    NonDecreasing lt (smaller lt k l ++ (between ++ larger lt k l)) := by
  have hsorted : ∀ p : K × V → Bool, NonDecreasing lt (l.filter p) :=
    fun p => List.Pairwise.sublist List.filter_sublist h
  refine List.pairwise_append.mpr ⟨hsorted _, List.pairwise_append.mpr ⟨?_, hsorted _, ?_⟩, ?_⟩
  · exact List.pairwise_of_forall_mem_list fun a ha b hb =>
      ((hbetween b hb).trans (hbetween a ha).symm).1
  · intro a ha b hb hba
    have hkb := (mem_larger.mp hb).2
    exact lt_asymm_of_weak hkb (((hbetween a ha).gt_iff b.1).mp hba)
  · intro a ha b hb hba
    have hak := (mem_smaller.mp ha).2
    have hbk : lt b.1 k := IsTrans.trans _ _ _ hba hak
    obtain hb | hb := List.mem_append.mp hb
    · exact (hbetween b hb).1 hbk
    · exact lt_asymm_of_weak (mem_larger.mp hb).2 hbk

/-- What is looked up after such a change. -/
theorem NonDecreasing.equals_replace {l between : List (K × V)} (h : NonDecreasing lt l) {k : K}
    (hbetween : ∀ e ∈ between, Equivalent lt e.1 k) (j : K) :
    equals lt j (smaller lt k l ++ (between ++ larger lt k l)) =
      if Equivalent lt k j then between else equals lt j l := by
  rw [equals_append, equals_append]
  split_ifs with hkj
  · have hsmaller : equals lt j (smaller lt k l) = [] := equals_eq_nil fun e he heq =>
      heq.1 (((hkj.gt_iff e.1).mp (mem_smaller.mp he).2))
    have hlarger : equals lt j (larger lt k l) = [] := equals_eq_nil fun e he heq =>
      heq.2 ((hkj.lt_iff e.1).mp (mem_larger.mp he).2)
    rw [hsmaller, hlarger, List.append_nil, List.nil_append,
      equals_eq_self fun e he => (hbetween e he).trans hkj]
  · have hnone : equals lt j between = [] := equals_eq_nil fun e he heq =>
      hkj ((hbetween e he).symm.trans heq)
    have hnone' : equals lt j (equals lt k l) = [] := equals_eq_nil fun e he heq =>
      hkj ((mem_equals.mp he).2.symm.trans heq)
    conv_rhs => rw [← h.parts k]
    rw [equals_append, equals_append, hnone, hnone']

end Bettergram.Foundation
