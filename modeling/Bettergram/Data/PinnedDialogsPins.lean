import Bettergram.Data.PinnedDialogs

/-! # Pinning, unpinning and swapping

Indexes grow along the order, so an index that is its position fixes all those
in front of it. With this each user action is right exactly under its condition.
-/

namespace Bettergram.Data.PinnedDialogs

variable {κ : Type}

/-- What user actions leave alone. -/
structure SameEntries (s s' : State κ) : Prop where
  loaded : s'.loaded = s.loaded
  recorded : s'.pinnedDialogsAndIndexes = s.pinnedDialogsAndIndexes
  settings : ∀ key, s.loaded key = false → s'.settings key = s.settings key

theorem SameEntries.trans {s s' s'' : State κ} (h : SameEntries s s') (h' : SameEntries s' s'') :
    SameEntries s s'' where
  loaded := h'.loaded.trans h.loaded
  recorded := h'.recorded.trans h.recorded
  settings key hkey := (h'.settings key (by rw [h.loaded]; exact hkey)).trans (h.settings key hkey)

/-- What is recorded of the loaded entries, and what the others will be loaded with. -/
structure Recorded (s : State κ) : Prop where
  sorted : s.pinnedDialogsAndIndexes.Pairwise fun a b => a.1 < b.1
  nodup : (s.pinnedDialogsAndIndexes.map Prod.snd).Nodup
  loaded : ∀ entry ∈ s.pinnedDialogsAndIndexes, s.loaded entry.2 = true
  other : ∀ key, s.loaded key = false → 0 < s.settings key →
    ∀ entry ∈ s.pinnedDialogsAndIndexes, entry.1 ≠ s.settings key
  distinct : ∀ a b, s.loaded a = false → s.loaded b = false → 0 < s.settings a →
    s.settings a = s.settings b → a = b

theorem Recorded.same {s s' : State κ} (h : Recorded s) (hsame : SameEntries s s') :
    Recorded s' where
  sorted := by
    rw [hsame.recorded]
    exact h.sorted
  nodup := by
    rw [hsame.recorded]
    exact h.nodup
  loaded := by
    rw [hsame.recorded, hsame.loaded]
    exact h.loaded
  other key hkey hpos := by
    rw [hsame.loaded] at hkey
    rw [hsame.settings key hkey] at hpos ⊢
    rw [hsame.recorded]
    exact h.other key hkey hpos
  distinct a b ha hb hpos heq := by
    rw [hsame.loaded] at ha hb
    rw [hsame.settings a ha] at hpos heq
    rw [hsame.settings b hb] at heq
    exact h.distinct a b ha hb hpos heq

/-- The order of an agreement in terms of places. -/
theorem Agrees.lt {s : State κ} (h : Agrees s) {i j : ℕ} (hi : i < s.pinnedDialogs.length)
    (hj : j < s.pinnedDialogs.length) (hij : i < j) :
    s.pinnedIndex s.pinnedDialogs[i] < s.pinnedIndex s.pinnedDialogs[j] :=
  List.pairwise_iff_getElem.mp h.increasing i j hi hj hij

/-- Between two places the indexes grow at least as much as the places. -/
theorem Agrees.gap {s : State κ} (h : Agrees s) {i j : ℕ} (hi : i < s.pinnedDialogs.length)
    (hj : j < s.pinnedDialogs.length) (hij : i ≤ j) :
    s.pinnedIndex s.pinnedDialogs[i] + (j - i) ≤ s.pinnedIndex s.pinnedDialogs[j] := by
  induction j with
  | zero =>
    obtain rfl := Nat.le_zero.mp hij
    exact le_rfl
  | succ j ih =>
    obtain rfl | hlt := hij.eq_or_lt
    · omega
    · have hprev := ih (by omega) (by omega)
      have hstep := h.lt (i := j) (by omega) hj (Nat.lt_succ_self j)
      omega

theorem Agrees.place_le {s : State κ} (h : Agrees s) {i : ℕ} (hi : i < s.pinnedDialogs.length) :
    i + 1 ≤ s.pinnedIndex s.pinnedDialogs[i] := by
  have hfirst := h.gap (i := 0) (by omega) hi (Nat.zero_le i)
  have hpos := ((h.mem_iff _).mp (List.getElem_mem (show 0 < s.pinnedDialogs.length by omega))).2
  omega

/-- In front of a key whose index is its position every key has its position. -/
theorem Agrees.numbered_before {s : State κ} (h : Agrees s) {i j : ℕ}
    (hi : i < s.pinnedDialogs.length) (hj : j < s.pinnedDialogs.length) (hij : i ≤ j)
    (hlast : s.pinnedIndex s.pinnedDialogs[j] ≤ j + 1) :
    s.pinnedIndex s.pinnedDialogs[i] = i + 1 := by
  have hgap := h.gap hi hj hij
  have hle := h.place_le hi
  omega

theorem Agrees.of_numbered {s : State κ} (hnodup : s.pinnedDialogs.Nodup)
    (hmem : ∀ key, key ∈ s.pinnedDialogs ↔ s.loaded key = true ∧ 0 < s.pinnedIndex key)
    (h : Numbered s) : Agrees s := by
  refine ⟨hnodup, hmem, List.pairwise_iff_getElem.mpr ?_⟩
  intro i j hi hj hij
  rw [h i hi, h j hj]
  omega

variable [DecidableEq κ]

namespace State

@[simp] theorem cachePinnedIndex_pinnedIndex (s : State κ) (key : κ) (index : ℕ) :
    (s.cachePinnedIndex key index).pinnedIndex = Function.update s.pinnedIndex key index := by
  unfold cachePinnedIndex
  split
  · rfl
  · rename_i h
    rw [not_not] at h
    rw [← h, Function.update_eq_self]

@[simp] theorem cachePinnedIndex_loaded (s : State κ) (key : κ) (index : ℕ) :
    (s.cachePinnedIndex key index).loaded = s.loaded := by
  unfold cachePinnedIndex
  split <;> rfl

@[simp] theorem cachePinnedIndex_pinnedDialogs (s : State κ) (key : κ) (index : ℕ) :
    (s.cachePinnedIndex key index).pinnedDialogs = s.pinnedDialogs := by
  unfold cachePinnedIndex
  split <;> rfl

@[simp] theorem cachePinnedIndex_recorded (s : State κ) (key : κ) (index : ℕ) :
    (s.cachePinnedIndex key index).pinnedDialogsAndIndexes = s.pinnedDialogsAndIndexes := by
  unfold cachePinnedIndex
  split <;> rfl

theorem cachePinnedIndex_settings (s : State κ) {key other : κ} (index : ℕ) (h : other ≠ key) :
    (s.cachePinnedIndex key index).settings other = s.settings other := by
  unfold cachePinnedIndex
  split
  · exact Function.update_of_ne h _ _
  · rfl

theorem sameEntries_cache (s : State κ) {key : κ} (index : ℕ) (hkey : s.loaded key = true) :
    SameEntries s (s.cachePinnedIndex key index) where
  loaded := cachePinnedIndex_loaded s key index
  recorded := cachePinnedIndex_recorded s key index
  settings other hother := by
    refine cachePinnedIndex_settings s index ?_
    rintro rfl
    rw [hkey] at hother
    cases hother

/-- The loop gives each key of the list the number of its place. -/
theorem renumber_index (start : ℕ) (keys : List κ) (s : State κ) (hnodup : keys.Nodup) :
    (renumber start keys s).pinnedDialogs = s.pinnedDialogs ∧
      (∀ key ∉ keys, (renumber start keys s).pinnedIndex key = s.pinnedIndex key) ∧
      ∀ (i : ℕ) (h : i < keys.length), (renumber start keys s).pinnedIndex keys[i] = start + i + 1 := by
  induction keys generalizing start s with
  | nil => exact ⟨rfl, fun _ _ => rfl, fun i h => absurd h (by simp)⟩
  | cons key keys ih =>
    rw [List.nodup_cons] at hnodup
    obtain ⟨horder, hout, hin⟩ := ih (start + 1) (s.cachePinnedIndex key (start + 1)) hnodup.2
    refine ⟨horder.trans (cachePinnedIndex_pinnedDialogs s key (start + 1)), fun other hother => ?_,
      fun i h => ?_⟩
    · rw [List.mem_cons, not_or] at hother
      rw [renumber, hout other hother.2, cachePinnedIndex_pinnedIndex,
        Function.update_of_ne hother.1]
    · cases i with
      | zero =>
        rw [List.getElem_cons_zero, renumber, hout key hnodup.1, cachePinnedIndex_pinnedIndex,
          Function.update_self]
      | succ i =>
        rw [List.getElem_cons_succ, renumber, hin i (by simpa using h)]
        omega

theorem sameEntries_renumber (start : ℕ) (keys : List κ) (s : State κ)
    (hloaded : ∀ key ∈ keys, s.loaded key = true) : SameEntries s (renumber start keys s) := by
  induction keys generalizing start s with
  | nil => exact ⟨rfl, rfl, fun _ _ => rfl⟩
  | cons key keys ih =>
    have hcache := sameEntries_cache s (start + 1) (hloaded key List.mem_cons_self)
    refine hcache.trans (ih (start + 1) (s.cachePinnedIndex key (start + 1)) fun k hk => ?_)
    rw [cachePinnedIndex_loaded]
    exact hloaded k (List.mem_cons_of_mem _ hk)

end State

open State

/-! ## Pinning and unpinning -/

/-- The keys that are left are renumbered; the others have the index 0. -/
theorem renumber_right {s : State κ} (hnodup : s.pinnedDialogs.Nodup)
    (hloaded : ∀ key ∈ s.pinnedDialogs, s.loaded key = true)
    (hout : ∀ key ∉ s.pinnedDialogs, s.loaded key = true → s.pinnedIndex key = 0) :
    Agrees (renumber 0 s.pinnedDialogs s) ∧ Numbered (renumber 0 s.pinnedDialogs s) := by
  have hsame := sameEntries_renumber 0 s.pinnedDialogs s hloaded
  obtain ⟨horder, hother, hplace⟩ := renumber_index 0 s.pinnedDialogs s hnodup
  have hnumbered : Numbered (renumber 0 s.pinnedDialogs s) := by
    intro i hi
    have hi' : i < s.pinnedDialogs.length := by rwa [horder] at hi
    have hget : (renumber 0 s.pinnedDialogs s).pinnedDialogs[i] = s.pinnedDialogs[i] := by
      simp only [horder]
    rw [hget, hplace i hi', Nat.zero_add]
  refine ⟨Agrees.of_numbered (by rw [horder]; exact hnodup) ?_ hnumbered, hnumbered⟩
  intro key
  rw [horder, hsame.loaded]
  constructor
  · intro hkey
    obtain ⟨i, hi, rfl⟩ := List.mem_iff_getElem.mp hkey
    exact ⟨hloaded _ hkey, by rw [hplace i hi]; omega⟩
  · rintro ⟨hkey, hpos⟩
    by_contra hnot
    rw [hother key hnot, hout key hnot hkey] at hpos
    exact lt_irrefl _ hpos

/-- Without a key the others are renumbered. -/
theorem drop_right {s : State κ} (h : Agrees s) {key : κ} {rest : List κ}
    (hloaded : s.loaded key = true) (hnodup : (key :: rest).Nodup)
    (hrest : ∀ other ∈ s.pinnedDialogs, other ≠ key → other ∈ rest)
    (hall : ∀ other ∈ rest, s.loaded other = true) :
    let s' := renumber 0 rest { s.cachePinnedIndex key 0 with pinnedDialogs := rest }
    Agrees s' ∧ Numbered s' ∧ SameEntries s s' := by
  rw [List.nodup_cons] at hnodup
  have hcache := sameEntries_cache s 0 hloaded
  have hset : SameEntries s { s.cachePinnedIndex key 0 with pinnedDialogs := rest } :=
    ⟨hcache.loaded, hcache.recorded, hcache.settings⟩
  have hloaded' : ∀ other ∈ rest, (s.cachePinnedIndex key 0).loaded other = true := by
    intro other hother
    rw [cachePinnedIndex_loaded]
    exact hall other hother
  have hright := renumber_right (s := { s.cachePinnedIndex key 0 with pinnedDialogs := rest })
    hnodup.2 hloaded' ?_
  · exact ⟨hright.1, hright.2, hset.trans (sameEntries_renumber 0 rest
      { s.cachePinnedIndex key 0 with pinnedDialogs := rest } hloaded')⟩
  · intro other hother hin
    dsimp only at hother hin ⊢
    rw [cachePinnedIndex_loaded] at hin
    rw [cachePinnedIndex_pinnedIndex]
    obtain rfl | hne := eq_or_ne other key
    · exact Function.update_self _ _ _
    · rw [Function.update_of_ne hne]
      by_contra hpos
      exact hother (hrest other ((h.mem_iff other).mpr ⟨hin, Nat.pos_of_ne_zero hpos⟩) hne)

theorem unpin_right {s : State κ} (h : Agrees s) {key : κ} (hloaded : s.loaded key = true)
    (hkey : key ∈ s.pinnedDialogs) (countMax : ℕ) :
    ∃ s', s.setIsPinned key false countMax = some s' ∧ Agrees s' ∧ Numbered s' ∧
      SameEntries s s' := by
  refine ⟨_, by rw [setIsPinned, if_neg Bool.false_ne_true, if_pos hkey], ?_⟩
  refine drop_right h hloaded ?_ ?_ ?_
  · exact (List.perm_cons_erase hkey).nodup_iff.mp h.nodup
  · intro other hother hne
    exact (List.mem_erase_of_ne hne).mpr hother
  · intro other hother
    exact ((h.mem_iff other).mp (List.mem_of_mem_erase hother)).1

/-- Too many pinned keys: the first goes. -/
theorem pin_full {s : State κ} (h : Agrees s) {key : κ} (hloaded : s.loaded key = true)
    (hkey : key ∉ s.pinnedDialogs) {countMax : ℕ} (hfull : countMax ≤ s.pinnedDialogs.length) :
    ∃ s', s.setIsPinned key true countMax = some s' ∧ Agrees s' ∧ Numbered s' ∧
      SameEntries s s' := by
  rw [setIsPinned, if_pos rfl, if_neg hkey, if_pos (Nat.lt_succ_of_le hfull)]
  have hnew : (s.pinnedDialogs ++ [key]).Nodup :=
    List.nodup_append.mpr ⟨h.nodup, List.nodup_singleton key, by
      intro a ha b hb hab
      rw [hab, List.mem_singleton.mp hb] at ha
      exact hkey ha⟩
  have hall : ∀ other ∈ s.pinnedDialogs ++ [key], s.loaded other = true := by
    intro other hother
    obtain hold | hnew := List.mem_append.mp hother
    · exact ((h.mem_iff other).mp hold).1
    · rw [List.mem_singleton.mp hnew]
      exact hloaded
  cases horder : s.pinnedDialogs ++ [key] with
  | nil => simp at horder
  | cons front rest =>
    rw [horder] at hnew hall
    refine ⟨_, rfl, drop_right h (hall front List.mem_cons_self) hnew ?_
      fun other hother => hall other (List.mem_cons_of_mem _ hother)⟩
    intro other hother hne
    have hin : other ∈ front :: rest := by
      rw [← horder]
      exact List.mem_append_left _ hother
    exact (List.mem_cons.mp hin).resolve_left hne

/-- Room for one more: it gets the next number, which is larger than the others only
when these are numbered. -/
theorem pin_more {s : State κ} (h : Agrees s) {key : κ} (hloaded : s.loaded key = true)
    (hkey : key ∉ s.pinnedDialogs) {countMax : ℕ} (hroom : s.pinnedDialogs.length < countMax) :
    ∃ s', s.setIsPinned key true countMax = some s' ∧ SameEntries s s' ∧
      (Agrees s' → Numbered s) ∧ (Numbered s → Agrees s' ∧ Numbered s') := by
  have horder : ({ s with pinnedDialogs := s.pinnedDialogs ++ [key] }.cachePinnedIndex key
      (s.pinnedDialogs.length + 1)).pinnedDialogs = s.pinnedDialogs ++ [key] := by simp
  have hindex : ({ s with pinnedDialogs := s.pinnedDialogs ++ [key] }.cachePinnedIndex key
      (s.pinnedDialogs.length + 1)).pinnedIndex =
      Function.update s.pinnedIndex key (s.pinnedDialogs.length + 1) := by simp
  obtain ⟨hall, hrecorded, hsettings⟩ := sameEntries_cache
    { s with pinnedDialogs := s.pinnedDialogs ++ [key] } (s.pinnedDialogs.length + 1) hloaded
  refine ⟨_, by rw [setIsPinned, if_pos rfl, if_neg hkey, if_neg (by omega)],
    ⟨hall, hrecorded, hsettings⟩, ?_, ?_⟩
  · intro h' i hi
    have hle : ∀ (j : ℕ) (hj : j < s.pinnedDialogs.length),
        s.pinnedIndex s.pinnedDialogs[j] ≤ s.pinnedDialogs.length := by
      intro j hj
      have hlt := h'.lt (i := j) (j := s.pinnedDialogs.length) (by rw [horder]; simp; omega)
        (by rw [horder]; simp) hj
      have hne : s.pinnedDialogs[j] ≠ key := fun heq => hkey (heq ▸ List.getElem_mem hj)
      simp only [horder, hindex] at hlt
      rw [List.getElem_append_left hj, List.getElem_append_right (le_refl _)] at hlt
      simp only [Nat.sub_self, List.getElem_cons_zero, Function.update_self,
        Function.update_of_ne hne] at hlt
      omega
    have hlast : s.pinnedDialogs.length - 1 < s.pinnedDialogs.length := by omega
    have hlastLe := hle (s.pinnedDialogs.length - 1) hlast
    exact h.numbered_before hi hlast (by omega) (by omega)
  · intro hnumbered
    have hnumbered' : Numbered ({ s with pinnedDialogs := s.pinnedDialogs ++ [key]
        }.cachePinnedIndex key (s.pinnedDialogs.length + 1)) := by
      intro i hi
      simp only [horder, hindex]
      rw [horder, List.length_append, List.length_singleton] at hi
      by_cases hold : i < s.pinnedDialogs.length
      · have hne : s.pinnedDialogs[i] ≠ key := fun heq => hkey (heq ▸ List.getElem_mem hold)
        rw [List.getElem_append_left hold, Function.update_of_ne hne, hnumbered i hold]
      · obtain rfl : i = s.pinnedDialogs.length := by omega
        rw [List.getElem_append_right (le_refl _)]
        simp
    refine ⟨Agrees.of_numbered ?_ ?_ hnumbered', hnumbered'⟩
    · rw [horder, List.nodup_append]
      refine ⟨h.nodup, List.nodup_singleton key, ?_⟩
      intro a ha b hb hab
      rw [hab, List.mem_singleton.mp hb] at ha
      exact hkey ha
    · intro other
      rw [horder, hindex, hall, List.mem_append, List.mem_singleton]
      obtain rfl | hne := eq_or_ne other key
      · simp [hloaded]
      · rw [Function.update_of_ne hne, or_iff_left hne]
        exact h.mem_iff other

/-! ## Swapping -/

omit [DecidableEq κ] in
theorem SameEntries.allLoaded {s s' : State κ} (h : SameEntries s s') :
    AllLoaded s' ↔ AllLoaded s := by
  have hone : ∀ key, (0 < s'.settings key → s'.loaded key = true) ↔
      (0 < s.settings key → s.loaded key = true) := by
    intro key
    rw [h.loaded]
    cases hkey : s.loaded key with
    | true => simp
    | false => rw [h.settings key hkey]
  exact forall_congr' hone

/-- What a swap of two pinned keys makes of the order and of the indexes along it. -/
theorem reorder_spec {s : State κ} (h : Agrees s) {key1 key2 : κ} (hkey1 : key1 ∈ s.pinnedDialogs)
    (hkey2 : key2 ∈ s.pinnedDialogs) (hne : key1 ≠ key2) :
    ∃ s', s.reorderTwoPinnedDialogs key1 key2 = some s' ∧ SameEntries s s' ∧
      s'.pinnedDialogs.Perm s.pinnedDialogs ∧
      (∀ key, 0 < s'.pinnedIndex key ↔ 0 < s.pinnedIndex key) ∧
      ∀ (i : ℕ) (hi : i < s'.pinnedDialogs.length) (hi' : i < s.pinnedDialogs.length),
        s'.pinnedIndex s'.pinnedDialogs[i] =
          if s.pinnedDialogs[i] = key1 ∨ s.pinnedDialogs[i] = key2 then i + 1
          else s.pinnedIndex s.pinnedDialogs[i] := by
  have hi := List.idxOf_lt_length_of_mem hkey1
  have hj := List.idxOf_lt_length_of_mem hkey2
  have hget1 : s.pinnedDialogs[s.pinnedDialogs.idxOf key1] = key1 := List.getElem_idxOf hi
  have hget2 : s.pinnedDialogs[s.pinnedDialogs.idxOf key2] = key2 := List.getElem_idxOf hj
  have hij : s.pinnedDialogs.idxOf key1 ≠ s.pinnedDialogs.idxOf key2 := by
    intro heq
    rw [List.idxOf_inj hkey1] at heq
    exact hne heq
  refine ⟨_, by rw [reorderTwoPinnedDialogs]; exact if_pos ⟨hi, hj, hij⟩, ?_, ?_, ?_, ?_⟩
  · obtain ⟨h1, h2, h3⟩ := sameEntries_cache { s with
      pinnedDialogs := (s.pinnedDialogs.set (s.pinnedDialogs.idxOf key1) key2).set
        (s.pinnedDialogs.idxOf key2) key1 } (s.pinnedDialogs.idxOf key2 + 1)
      ((h.mem_iff key1).mp hkey1).1
    have hfirst : SameEntries s _ := ⟨h1, h2, h3⟩
    refine hfirst.trans (sameEntries_cache _ _ ?_)
    rw [h1]
    exact ((h.mem_iff key2).mp hkey2).1
  · simp only [cachePinnedIndex_pinnedDialogs]
    have hperm := List.set_set_perm hi hj
    rwa [hget1, hget2] at hperm
  · intro key
    simp only [cachePinnedIndex_pinnedIndex]
    obtain rfl | hne2 := eq_or_ne key key2
    · simp [((h.mem_iff key).mp hkey2).2]
    rw [Function.update_of_ne hne2]
    obtain rfl | hne1 := eq_or_ne key key1
    · simp [((h.mem_iff key).mp hkey1).2]
    · rw [Function.update_of_ne hne1]
  · intro m hm hm'
    have hplace : ∀ key ∈ s.pinnedDialogs, s.pinnedDialogs[m] = key ↔
        m = s.pinnedDialogs.idxOf key := by
      intro key hkey
      constructor
      · rintro rfl
        exact (h.nodup.idxOf_getElem m hm').symm
      · rintro rfl
        exact List.getElem_idxOf hm'
    simp only [cachePinnedIndex_pinnedDialogs, cachePinnedIndex_pinnedIndex, List.getElem_set]
    by_cases h2 : s.pinnedDialogs.idxOf key2 = m
    · rw [if_pos h2, if_pos (.inr ((hplace key2 hkey2).mpr h2.symm)), Function.update_of_ne hne, Function.update_self, h2]
    rw [if_neg h2]
    by_cases h1 : s.pinnedDialogs.idxOf key1 = m
    · rw [if_pos h1, if_pos (.inl ((hplace key1 hkey1).mpr h1.symm)), Function.update_self, h1]
    · have hne1 : s.pinnedDialogs[m] ≠ key1 := fun heq => h1 ((hplace key1 hkey1).mp heq).symm
      have hne2 : s.pinnedDialogs[m] ≠ key2 := fun heq => h2 ((hplace key2 hkey2).mp heq).symm
      rw [if_neg h1, if_neg (not_or.mpr ⟨hne1, hne2⟩), Function.update_of_ne hne2, Function.update_of_ne hne1]

theorem reorder_iff {s : State κ} (h : Agrees s) (key1 key2 : κ) :
    (∃ s', s.reorderTwoPinnedDialogs key1 key2 = some s' ∧ Right (.reorder key1 key2) s') ↔
      Meets s (.reorder key1 key2) := by
  by_cases hkeys : key1 ∈ s.pinnedDialogs ∧ key2 ∈ s.pinnedDialogs ∧ key1 ≠ key2
  swap
  · refine iff_of_false ?_ fun hmeets => hkeys ⟨hmeets.1, hmeets.2.1, hmeets.2.2.1⟩
    rintro ⟨s', hswap, -⟩
    rw [reorderTwoPinnedDialogs] at hswap
    split at hswap
    · rename_i hin
      refine hkeys ⟨List.idxOf_lt_length_iff.mp hin.1, List.idxOf_lt_length_iff.mp hin.2.1, ?_⟩
      rintro rfl
      exact hin.2.2 rfl
    · cases hswap
  obtain ⟨hkey1, hkey2, hne⟩ := hkeys
  obtain ⟨s', hswap, hsame, hperm, hpos, hindex⟩ := reorder_spec h hkey1 hkey2 hne
  have hlength : s'.pinnedDialogs.length = s.pinnedDialogs.length := hperm.length_eq
  have hplace : ∀ (key : κ) (i : ℕ) (hi : i < s.pinnedDialogs.length), s.pinnedDialogs[i] = key →
      i = s.pinnedDialogs.idxOf key := by
    rintro key i hi rfl
    exact (h.nodup.idxOf_getElem i hi).symm
  rw [show (∃ s', s.reorderTwoPinnedDialogs key1 key2 = some s' ∧ Right (.reorder key1 key2) s') ↔
    (Agrees s' ∧ (AllLoaded s' → Numbered s')) from
    ⟨fun ⟨t, ht, hright⟩ => by
      rw [hswap, Option.some.injEq] at ht
      rw [ht]
      exact hright, fun hright => ⟨s', hswap, hright⟩⟩, hsame.allLoaded]
  constructor
  · rintro ⟨hagrees, hnumbered⟩
    refine ⟨hkey1, hkey2, hne, ?_⟩
    intro i hi hne1 hne2 hwhere
    have hval := hindex i (by omega) hi
    rw [if_neg (by rintro (heq | heq); exacts [hne1 heq, hne2 heq])] at hval
    rw [← hval]
    have hbefore : ∀ key ∈ s.pinnedDialogs, (key = key1 ∨ key = key2) →
        i < s.pinnedDialogs.idxOf key → s'.pinnedIndex s'.pinnedDialogs[i] = i + 1 := by
      intro key hkey hor hlt
      have hplace' := List.idxOf_lt_length_of_mem hkey
      refine hagrees.numbered_before (by omega) (j := s.pinnedDialogs.idxOf key) (by omega)
        hlt.le ?_
      rw [hindex _ (by omega) hplace', if_pos (by rw [List.getElem_idxOf]; exact hor)]
    obtain hlt | hlt | hall := hwhere
    · exact hbefore key1 hkey1 (.inl rfl) hlt
    · exact hbefore key2 hkey2 (.inr rfl) hlt
    · exact hnumbered hall i (by omega)
  · rintro ⟨-, -, -, hmeets⟩
    have hval : ∀ (i : ℕ) (hi : i < s'.pinnedDialogs.length),
        (i ≤ s.pinnedDialogs.idxOf key1 ∨ i ≤ s.pinnedDialogs.idxOf key2 ∨ AllLoaded s) →
        s'.pinnedIndex s'.pinnedDialogs[i] = i + 1 := by
      intro i hi hwhere
      have hi' : i < s.pinnedDialogs.length := by omega
      rw [hindex i hi hi']
      split
      · rfl
      · rename_i hneither
        rw [not_or] at hneither
        refine hmeets i hi' hneither.1 hneither.2 (hwhere.imp ?_ (Or.imp_left ?_))
        · intro hle
          refine hle.lt_of_ne ?_
          rintro rfl
          exact hneither.1 (List.getElem_idxOf hi')
        · intro hle
          refine hle.lt_of_ne ?_
          rintro rfl
          exact hneither.2 (List.getElem_idxOf hi')
    have hbehind : ∀ (i : ℕ) (hi : i < s'.pinnedDialogs.length) (hi' : i < s.pinnedDialogs.length),
        s.pinnedDialogs.idxOf key1 < i → s.pinnedDialogs.idxOf key2 < i →
        s'.pinnedIndex s'.pinnedDialogs[i] = s.pinnedIndex s.pinnedDialogs[i] := by
      intro i hi hi' h1 h2
      rw [hindex i hi hi', if_neg]
      rintro (heq | heq)
      · have := hplace key1 i hi' heq
        omega
      · have := hplace key2 i hi' heq
        omega
    refine ⟨⟨hperm.nodup_iff.mpr h.nodup, ?_, List.pairwise_iff_getElem.mpr ?_⟩,
      fun hall i hi => hval i hi (.inr (.inr hall))⟩
    · intro key
      rw [hperm.mem_iff, hsame.loaded, hpos, h.mem_iff]
    · intro a b ha hb hab
      by_cases hfront : b ≤ s.pinnedDialogs.idxOf key1 ∨ b ≤ s.pinnedDialogs.idxOf key2
      · rw [hval a ha (by omega), hval b hb (by omega)]
        omega
      · rw [hbehind b hb (by omega) (by omega) (by omega)]
        by_cases hfront' : a ≤ s.pinnedDialogs.idxOf key1 ∨ a ≤ s.pinnedDialogs.idxOf key2
        · rw [hval a ha (by omega)]
          have := h.place_le (i := b) (by omega)
          omega
        · rw [hbehind a ha (by omega) (by omega) (by omega)]
          exact h.lt (by omega) (by omega) hab

end Bettergram.Data.PinnedDialogs
