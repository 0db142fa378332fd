import Mathlib.Algebra.BigOperators.Group.Finset.Basic
import Mathlib.Data.Finset.Image
import Mathlib.Tactic.Linarith

/-! # Lengths of disjoint stretches

Stretches that lie inside a range and do not meet cover the range exactly when
their lengths sum up to its length.
-/

namespace Bettergram.Foundation

/-- The positions from behind `lo` up to `hi`. -/
structure Stretch where
  lo : ℤ
  hi : ℤ

namespace Stretch

def positions (i : Stretch) : Finset ℤ :=
  (Finset.range (i.hi - i.lo).toNat).image fun n : ℕ => i.lo + 1 + n
def length (i : Stretch) : ℤ := i.hi - i.lo

theorem mem_positions {i : Stretch} {p : ℤ} : p ∈ i.positions ↔ i.lo < p ∧ p ≤ i.hi := by
  simp only [positions, Finset.mem_image, Finset.mem_range]
  constructor
  · rintro ⟨n, hn, rfl⟩
    omega
  · rintro ⟨h₁, h₂⟩
    exact ⟨(p - i.lo - 1).toNat, by omega, by omega⟩

theorem card_positions {i : Stretch} (h : i.lo ≤ i.hi) : (i.positions.card : ℤ) = i.length := by
  have hinjective : Function.Injective fun n : ℕ => i.lo + 1 + (n : ℤ) := by
    intro m n h
    dsimp only at h
    omega
  rw [positions, Finset.card_image_of_injective _ hinjective, Finset.card_range, length]
  omega

end Stretch

/-- The positions of all the stretches. -/
def covered (is : List Stretch) : Finset ℤ := is.foldr (fun i s => i.positions ∪ s) ∅

@[simp] theorem mem_covered {is : List Stretch} {p : ℤ} :
    p ∈ covered is ↔ ∃ i ∈ is, p ∈ i.positions := by
  induction is with
  | nil => simp [covered]
  | cons i is ih =>
    rw [covered, List.foldr_cons, Finset.mem_union, ← covered, ih]
    simp

/-- Pairwise without a common position. -/
def Apart (is : List Stretch) : Prop := is.Pairwise fun i j => Disjoint i.positions j.positions

theorem card_covered {is : List Stretch} (hapart : Apart is) (hle : ∀ i ∈ is, i.lo ≤ i.hi) :
    ((covered is).card : ℤ) = (is.map Stretch.length).sum := by
  induction is with
  | nil => rfl
  | cons i is ih =>
    obtain ⟨hi, his⟩ := List.pairwise_cons.mp hapart
    have hdisjoint : Disjoint i.positions (covered is) := by
      rw [Finset.disjoint_left]
      intro p hp hmem
      obtain ⟨j, hj, hpj⟩ := mem_covered.mp hmem
      exact Finset.disjoint_left.mp (hi j hj) hp hpj
    have hrest := ih his fun j hj => hle j (by simp [hj])
    rw [covered, List.foldr_cons, ← covered, Finset.card_union_of_disjoint hdisjoint, List.map_cons,
      List.sum_cons, Nat.cast_add, Stretch.card_positions (hle i (by simp)), hrest]

variable {is : List Stretch} {lo hi : ℤ}

theorem covered_subset (hin : ∀ i ∈ is, lo ≤ i.lo ∧ i.hi ≤ hi) : covered is ⊆ (Stretch.mk lo hi).positions := by
  intro p hp
  obtain ⟨i, hi, hpi⟩ := mem_covered.mp hp
  obtain ⟨hlo, hhi⟩ := hin i hi
  obtain ⟨h₁, h₂⟩ := Stretch.mem_positions.mp hpi
  rw [Stretch.mem_positions]
  exact ⟨by dsimp only; omega, by dsimp only; omega⟩

variable (hapart : Apart is) (hle : ∀ i ∈ is, i.lo ≤ i.hi)
  (hin : ∀ i ∈ is, lo ≤ i.lo ∧ i.hi ≤ hi) (hlohi : lo ≤ hi)
include hapart hle hin hlohi

theorem sum_length_le : (is.map Stretch.length).sum ≤ hi - lo := by
  have hcard := Finset.card_le_card (covered_subset hin)
  have hrange := Stretch.card_positions (i := ⟨lo, hi⟩) hlohi
  rw [← card_covered hapart hle]
  simp only [Stretch.length] at hrange
  omega

/-- Lengths that fill the range leave no position out, and the other way round. -/
theorem sum_length_eq_iff :
    (is.map Stretch.length).sum = hi - lo ↔
      ∀ p, lo < p → p ≤ hi → ∃ i ∈ is, p ∈ i.positions := by
  have hsubset := covered_subset hin
  have hrange := Stretch.card_positions (i := ⟨lo, hi⟩) hlohi
  simp only [Stretch.length] at hrange
  rw [← card_covered hapart hle]
  constructor
  · intro hsum p h₁ h₂
    have heq : covered is = (Stretch.mk lo hi).positions :=
      Finset.eq_of_subset_of_card_le hsubset (by omega)
    exact mem_covered.mp (heq ▸ Stretch.mem_positions.mpr ⟨h₁, h₂⟩)
  · intro hall
    have heq : covered is = (Stretch.mk lo hi).positions := by
      apply Finset.Subset.antisymm hsubset
      intro p hp
      obtain ⟨h₁, h₂⟩ := Stretch.mem_positions.mp hp
      exact mem_covered.mpr (hall p h₁ h₂)
    rw [heq, hrange]

end Bettergram.Foundation
