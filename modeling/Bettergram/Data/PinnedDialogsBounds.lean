import Bettergram.Data.PinnedDialogsPins

/-! # Pinning what is pinned

The keys behind one that is pinned already move one place forward. The place of
that key is counted from the end of the list, and so the loop begins in front of
it. All other calls keep the order and the numbers.
-/

namespace Bettergram.Data.PinnedDialogs

variable {κ : Type} [DecidableEq κ]

namespace State

def read (s : State κ) (index : ℤ) : Option κ :=
  if 0 ≤ index then s.pinnedDialogs[index.toNat]? else none

def write (s : State κ) (index : ℤ) (key : κ) : Option (State κ) :=
  if 0 ≤ index ∧ index < s.pinnedDialogs.length then
    some { s with pinnedDialogs := s.pinnedDialogs.set index.toNat key }
  else none

/-- So many rounds of the loop from an index on. -/
def shift : ℕ → ℤ → State κ → Option (State κ)
  | 0, _, s => some s
  | rounds + 1, index, s => do
    let moved ← s.read index
    let s ← s.write (index - 1) moved
    let entry ← s.read (index - 1)
    shift rounds (index + 1) (s.cachePinnedIndex entry index.toNat)

/-- `alreadyIndex` is `already - end(_pinnedDialogs)`. -/
def repin (s : State κ) (key : κ) : Option (State κ) := do
  let count : ℤ := s.pinnedDialogs.length
  let alreadyIndex := s.pinnedDialogs.idxOf key - count
  let s ← shift (count - (alreadyIndex + 1)).toNat (alreadyIndex + 1) s
  let s ← s.write (count - 1) key
  some (s.cachePinnedIndex key count.toNat)

/-- With the loop for a key that is pinned already. -/
def setIsPinnedInBounds (s : State κ) (key : κ) (pinned : Bool) (countMax : ℕ) :
    Option (State κ) :=
  if pinned = true ∧ key ∈ s.pinnedDialogs then s.repin key
  else s.setIsPinned key pinned countMax

variable {s : State κ} {key : κ}

/-- The first write is in front of the list. -/
theorem repin_eq_none (h : key ∈ s.pinnedDialogs) : s.repin key = none := by
  have hlt := List.idxOf_lt_length_of_mem h
  obtain ⟨rounds, hrounds⟩ : ∃ rounds, ((s.pinnedDialogs.length : ℤ) -
      ((s.pinnedDialogs.idxOf key : ℤ) - s.pinnedDialogs.length + 1)).toNat = rounds + 1 :=
    ⟨2 * s.pinnedDialogs.length - s.pinnedDialogs.idxOf key - 2, by omega⟩
  have hwrite : ∀ moved : κ, s.write ((s.pinnedDialogs.idxOf key : ℤ) -
      s.pinnedDialogs.length) moved = none := fun moved => if_neg (by omega)
  rw [repin]
  rw [hrounds, shift]
  simp [hwrite]

theorem setIsPinnedInBounds_eq (s : State κ) (key : κ) (pinned : Bool) (countMax : ℕ) :
    s.setIsPinnedInBounds key pinned countMax = s.setIsPinned key pinned countMax := by
  rw [setIsPinnedInBounds]
  split_ifs with h
  · rw [repin_eq_none h.2, setIsPinned, if_pos h.1, if_pos h.2]
  · rfl

end State

open State

/-- What pinning and unpinning should do to keys that are numbered. -/
structure PinRight (s : State κ) (key : κ) (pinned : Bool) (countMax : ℕ) (s' : State κ) :
    Prop where
  numbered : Numbered s'
  order : s'.pinnedDialogs =
    if pinned then
      (if key ∉ s.pinnedDialogs ∧ countMax < s.pinnedDialogs.length + 1 then s.pinnedDialogs.tail
      else s.pinnedDialogs.erase key) ++ [key]
    else s.pinnedDialogs.erase key
  dropped : ∀ other ∈ s.pinnedDialogs, other ∉ s'.pinnedDialogs → s'.pinnedIndex other = 0
  rest : ∀ other, other ≠ key → other ∉ s.pinnedDialogs →
    s'.pinnedIndex other = s.pinnedIndex other

variable {s : State κ} {key : κ} {countMax : ℕ}

/-- One key goes and the others are numbered. -/
theorem renumber_without {first : κ} {rest : List κ} (hnodup : rest.Nodup) (hfirst : first ∉ rest) :
    let s' := renumber 0 rest { s.cachePinnedIndex first 0 with pinnedDialogs := rest }
    Numbered s' ∧ s'.pinnedDialogs = rest ∧ s'.pinnedIndex first = 0 ∧
      ∀ other, other ≠ first → other ∉ rest → s'.pinnedIndex other = s.pinnedIndex other := by
  obtain ⟨horder, hout, hin⟩ := renumber_index 0 rest
    { s.cachePinnedIndex first 0 with pinnedDialogs := rest } hnodup
  refine ⟨fun i hi => ?_, horder, ?_, fun other hne hother => ?_⟩
  · have hi' : i < rest.length := by rwa [horder] at hi
    simp only [horder, hin i hi', Nat.zero_add]
  · rw [hout first hfirst]
    simp
  · rw [hout other hother]
    simp [Function.update_of_ne hne]

theorem unpin_pinRight (hnodup : s.pinnedDialogs.Nodup) (hnumbered : Numbered s) :
    ∃ s', s.setIsPinned key false countMax = some s' ∧ PinRight s key false countMax s' := by
  by_cases hkey : key ∈ s.pinnedDialogs
  · obtain ⟨hnumbered', horder, hindex, hrest⟩ := renumber_without (s := s)
      (hnodup.erase key) hnodup.not_mem_erase
    refine ⟨_, by rw [setIsPinned, if_neg Bool.false_ne_true, if_pos hkey], hnumbered', ?_, ?_, ?_⟩
    · exact horder
    · intro other hother hnot
      rw [horder] at hnot
      obtain rfl : other = key := by
        by_contra hne
        exact hnot ((List.mem_erase_of_ne hne).mpr hother)
      exact hindex
    · exact fun other hne hother => hrest other hne fun hmem => hother (List.mem_of_mem_erase hmem)
  · refine ⟨s, by rw [setIsPinned, if_neg Bool.false_ne_true, if_neg hkey], hnumbered, ?_,
      fun _ hother hnot => absurd hother hnot, fun _ _ _ => rfl⟩
    rw [if_neg Bool.false_ne_true, List.erase_of_not_mem hkey]


theorem pinMore_pinRight (hnumbered : Numbered s) (hkey : key ∉ s.pinnedDialogs)
    (hroom : s.pinnedDialogs.length < countMax) :
    ∃ s', s.setIsPinned key true countMax = some s' ∧ PinRight s key true countMax s' := by
  refine ⟨_, by rw [setIsPinned, if_pos rfl, if_neg hkey, if_neg (by omega)], ?_, ?_, ?_, ?_⟩
  · intro i hi
    simp only [cachePinnedIndex_pinnedDialogs, cachePinnedIndex_pinnedIndex,
      List.length_append, List.length_singleton] at hi ⊢
    by_cases hold : i < s.pinnedDialogs.length
    · have hne : s.pinnedDialogs[i] ≠ key := fun heq => hkey (heq ▸ List.getElem_mem hold)
      rw [List.getElem_append_left hold, Function.update_of_ne hne, hnumbered i hold]
    · obtain rfl : i = s.pinnedDialogs.length := by omega
      rw [List.getElem_append_right (le_refl _)]
      simp
  · rw [cachePinnedIndex_pinnedDialogs, if_pos rfl, if_neg (by omega), List.erase_of_not_mem hkey]
  · intro other hother hnot
    rw [cachePinnedIndex_pinnedDialogs] at hnot
    exact absurd (List.mem_append_left _ hother) hnot
  · intro other hne _
    rw [cachePinnedIndex_pinnedIndex, Function.update_of_ne hne]

theorem pinFull_pinRight (hnodup : s.pinnedDialogs.Nodup) (hkey : key ∉ s.pinnedDialogs)
    (hfull : countMax ≤ s.pinnedDialogs.length) (hne : s.pinnedDialogs ≠ []) :
    ∃ s', s.setIsPinned key true countMax = some s' ∧ PinRight s key true countMax s' := by
  obtain ⟨first, others, horder⟩ := List.exists_cons_of_ne_nil hne
  rw [horder, List.nodup_cons] at hnodup
  rw [horder, List.mem_cons, not_or] at hkey
  have hrest : (others ++ [key]).Nodup :=
    List.nodup_append_comm.mp (List.nodup_cons.mpr ⟨hkey.2, hnodup.2⟩)
  have hfirst : first ∉ others ++ [key] := by
    rw [List.mem_append, List.mem_singleton, not_or]
    exact ⟨hnodup.1, Ne.symm hkey.1⟩
  obtain ⟨hnumbered, horder', hindex, hindexes⟩ := renumber_without (s := s) hrest hfirst
  have hnot : key ∉ s.pinnedDialogs := by
    rw [horder, List.mem_cons, not_or]
    exact hkey
  refine ⟨_, ?_, hnumbered, ?_, ?_, ?_⟩
  · rw [setIsPinned, if_pos rfl, if_neg hnot, if_pos (Nat.lt_succ_of_le hfull), horder]
    rfl
  · rw [horder', if_pos rfl, if_pos ⟨hnot, Nat.lt_succ_of_le hfull⟩, horder]
    rfl
  · intro other hother hgone
    rw [horder'] at hgone
    rw [horder] at hother
    obtain rfl | hother := List.mem_cons.mp hother
    · exact hindex
    · exact absurd (List.mem_append_left _ hother) hgone
  · intro other hother hout
    rw [horder, List.mem_cons, not_or] at hout
    refine hindexes other hout.1 ?_
    rw [List.mem_append, List.mem_singleton, not_or]
    exact ⟨hout.2, hother⟩

/-- Pinning and unpinning do what they should exactly when the key to pin is not pinned yet, and
there is room for one. -/
theorem setIsPinned_right_iff (s : State κ) (hnodup : s.pinnedDialogs.Nodup)
    (hnumbered : Numbered s) (key : κ) (pinned : Bool) (countMax : ℕ) :
    (∃ s', s.setIsPinnedInBounds key pinned countMax = some s' ∧
        PinRight s key pinned countMax s') ↔
      (pinned = true → key ∉ s.pinnedDialogs ∧ (s.pinnedDialogs = [] → 0 < countMax)) := by
  rw [setIsPinnedInBounds_eq]
  cases pinned with
  | false => exact iff_of_true (unpin_pinRight hnodup hnumbered) fun h => absurd h (by simp)
  | true =>
    constructor
    · rintro ⟨s', hs', hright⟩ -
      have hkey : key ∉ s.pinnedDialogs := by
        intro hkey
        rw [setIsPinned, if_pos rfl, if_pos hkey] at hs'
        exact absurd hs' (by simp)
      refine ⟨hkey, fun hnil => Nat.pos_of_ne_zero ?_⟩
      rintro rfl
      rw [setIsPinned, if_pos rfl, if_neg hkey, if_pos (Nat.succ_pos _), hnil] at hs'
      obtain rfl := Option.some.inj hs'
      have horder := hright.order
      rw [if_pos rfl] at horder
      exact absurd (congrArg List.length horder) (by simp [renumber])
    · intro hcondition
      obtain ⟨hkey, hroom⟩ := hcondition rfl
      by_cases hfull : countMax ≤ s.pinnedDialogs.length
      · refine pinFull_pinRight hnodup hkey hfull fun hnil => ?_
        have hpos := hroom hnil
        rw [hnil, List.length_nil] at hfull
        omega
      · exact pinMore_pinRight hnumbered hkey (not_le.mp hfull)

/-- Two pinned keys. -/
def pinnedTwo : State ℕ where
  settings key := key
  loaded _ := true
  pinnedIndex key := key
  pinnedDialogsAndIndexes := []
  pinnedDialogs := [1, 2]

theorem pinnedTwo_numbered : pinnedTwo.pinnedDialogs.Nodup ∧ Numbered pinnedTwo := by
  refine ⟨by decide, fun i hi => ?_⟩
  have hlt : i < 2 := hi
  obtain rfl | rfl : i = 0 ∨ i = 1 := by omega
  · rfl
  · rfl

/-- The second one is pinned again. -/
theorem setIsPinned_out_of_bounds :
    pinnedTwo.pinnedDialogs.Nodup ∧ Numbered pinnedTwo ∧
      ¬ ∃ s', pinnedTwo.setIsPinnedInBounds 2 true 5 = some s' ∧ PinRight pinnedTwo 2 true 5 s' := by
  refine ⟨pinnedTwo_numbered.1, pinnedTwo_numbered.2, ?_⟩
  rintro ⟨s', hs', -⟩
  rw [setIsPinnedInBounds, if_pos ⟨rfl, by decide⟩, repin_eq_none (by decide)] at hs'
  exact absurd hs' (by simp)

theorem setIsPinned_right_iff_new :
    ∃ s', pinnedTwo.setIsPinnedInBounds 3 true 2 = some s' ∧ PinRight pinnedTwo 3 true 2 s' :=
  (setIsPinned_right_iff pinnedTwo pinnedTwo_numbered.1 pinnedTwo_numbered.2 3 true 2).mpr
    (by decide)

end Bettergram.Data.PinnedDialogs
