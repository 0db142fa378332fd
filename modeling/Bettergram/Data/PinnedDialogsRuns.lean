import Bettergram.Data.PinnedDialogsPins
import Mathlib.Data.List.Induction

/-! # Runs of the pinned dialogs

A load keeps the order and the cached indexes in agreement exactly when nothing
has changed since the loads before it; so a run is right when every event meets
its condition.
-/

namespace Bettergram.Data.PinnedDialogs

variable {κ : Type} [DecidableEq κ]

open State

/-! ## Loading -/

/-- Two strict orders along one list agree. -/
theorem lt_iff_of_pairwise {α : Type} {l : List α} {f g : α → ℕ}
    (hf : l.Pairwise fun a b => f a < f b) (hg : l.Pairwise fun a b => g a < g b) {a b : α}
    (ha : a ∈ l) (hb : b ∈ l) : f a < f b ↔ g a < g b := by
  obtain ⟨i, hi, rfl⟩ := List.mem_iff_getElem.mp ha
  obtain ⟨j, hj, rfl⟩ := List.mem_iff_getElem.mp hb
  have hplaces : ∀ f : α → ℕ, l.Pairwise (fun a b => f a < f b) → (f l[i] < f l[j] ↔ i < j) := by
    intro f hf
    refine ⟨fun hlt => ?_, List.pairwise_iff_getElem.mp hf i j hi hj⟩
    by_contra hle
    obtain heq | hji := (not_lt.mp hle).eq_or_lt
    · simp only [heq] at hlt
      exact lt_irrefl _ hlt
    · exact absurd (List.pairwise_iff_getElem.mp hf j i hj hi hji) hlt.asymm
  rw [hplaces f hf, hplaces g hg]

omit [DecidableEq κ] in
/-- The recorded entries with a new one among them. -/
theorem sort_spec {entries : List (ℕ × κ)} (entry : ℕ × κ)
    (hsorted : entries.Pairwise fun a b => a.1 < b.1) (hnew : ∀ e ∈ entries, e.1 ≠ entry.1) :
    let sorted := (entries ++ [entry]).insertionSort fun a b => a.1 ≤ b.1
    sorted.Perm (entry :: entries) ∧ sorted.Pairwise (fun a b => a.1 < b.1) ∧
      entries.Sublist sorted := by
  have : Std.Total fun a b : ℕ × κ => a.1 ≤ b.1 := ⟨fun a b => le_total a.1 b.1⟩
  have : IsTrans (ℕ × κ) fun a b => a.1 ≤ b.1 := ⟨fun _ _ _ hab hbc => le_trans hab hbc⟩
  intro sorted
  have hperm : sorted.Perm (entry :: entries) :=
    (List.perm_insertionSort _ _).trans (List.perm_append_singleton entry entries)
  have hne : sorted.Pairwise fun a b => a.1 ≠ b.1 := by
    refine (hperm.pairwise_iff (fun hab => Ne.symm hab)).mpr (List.pairwise_cons.mpr ⟨?_, ?_⟩)
    · exact fun e he => (hnew e he).symm
    · exact hsorted.imp fun hlt => hlt.ne
  refine ⟨hperm, ?_, ?_⟩
  · exact (List.pairwise_insertionSort _ _).imp₂ (fun _ _ hle hne => lt_of_le_of_ne hle hne) hne
  · exact List.sublist_insertionSort (hsorted.imp fun hlt => hlt.le)
      (List.sublist_append_left entries [entry])

theorem load_zero {s : State κ} (h : Agrees s) {key : κ} (hkey : s.loaded key = false)
    (hzero : s.settings key = 0) : Agrees (s.loadPinnedIndex key) := by
  have hnot : key ∉ s.pinnedDialogs := by
    intro hin
    rw [((h.mem_iff key).mp hin).1] at hkey
    cases hkey
  rw [loadPinnedIndex, insertPinnedDialog, if_pos hzero]
  refine ⟨h.nodup, ?_, ?_⟩
  · intro other
    dsimp only
    obtain rfl | hne := eq_or_ne other key
    · simp [hnot, hzero]
    · rw [Function.update_of_ne hne, Function.update_of_ne hne]
      exact h.mem_iff other
  · refine h.increasing.imp_of_mem ?_
    intro a b ha hb hlt
    dsimp only
    have hne : ∀ other ∈ s.pinnedDialogs, other ≠ key := fun other hin heq => hnot (heq ▸ hin)
    rwa [Function.update_of_ne (hne a ha), Function.update_of_ne (hne b hb)]

theorem loadPinnedIndex_pos {s : State κ} (hr : Recorded s) {key : κ}
    (hkey : s.loaded key = false) (hpos : 0 < s.settings key) :
    s.loadPinnedIndex key =
      { s with
        loaded := Function.update s.loaded key true
        pinnedIndex := Function.update s.pinnedIndex key (s.settings key)
        pinnedDialogsAndIndexes := (s.pinnedDialogsAndIndexes ++ [(s.settings key, key)]).insertionSort
          fun a b => a.1 ≤ b.1
        pinnedDialogs := ((s.pinnedDialogsAndIndexes ++ [(s.settings key, key)]).insertionSort
          fun a b => a.1 ≤ b.1).map Prod.snd } := by
  have hnot : key ∉ s.pinnedDialogsAndIndexes.map Prod.snd := by
    intro hin
    obtain ⟨entry, hentry, rfl⟩ := List.mem_map.mp hin
    rw [hr.loaded entry hentry] at hkey
    cases hkey
  rw [loadPinnedIndex, insertPinnedDialog, if_neg hpos.ne']
  exact if_neg hnot

theorem load_recorded {s : State κ} (hr : Recorded s) {key : κ} (hkey : s.loaded key = false) :
    Recorded (s.loadPinnedIndex key) := by
  have hother : ∀ other, Function.update s.loaded key true other = false →
      other ≠ key ∧ s.loaded other = false := by
    intro other hother
    obtain rfl | hne := eq_or_ne other key
    · rw [Function.update_self] at hother
      cases hother
    · exact ⟨hne, by rwa [Function.update_of_ne hne] at hother⟩
  have hloaded : ∀ entry ∈ s.pinnedDialogsAndIndexes,
      Function.update s.loaded key true entry.2 = true := by
    intro entry hentry
    by_cases heq : entry.2 = key
    · rw [heq, Function.update_self]
    · rw [Function.update_of_ne heq]
      exact hr.loaded entry hentry
  by_cases hzero : s.settings key = 0
  · rw [loadPinnedIndex, insertPinnedDialog, if_pos hzero]
    exact ⟨hr.sorted, hr.nodup, hloaded, fun other h => hr.other other (hother other h).2,
      fun a b ha hb => hr.distinct a b (hother a ha).2 (hother b hb).2⟩
  have hpos := Nat.pos_of_ne_zero hzero
  obtain ⟨hperm, hsorted, -⟩ := sort_spec (s.settings key, key) hr.sorted
    (hr.other key hkey hpos)
  have hmem : ∀ entry, entry ∈ (s.pinnedDialogsAndIndexes ++ [(s.settings key, key)]).insertionSort
      (fun a b => a.1 ≤ b.1) ↔ entry = (s.settings key, key) ∨ entry ∈ s.pinnedDialogsAndIndexes := by
    intro entry
    rw [hperm.mem_iff, List.mem_cons]
  rw [loadPinnedIndex_pos hr hkey hpos]
  refine ⟨hsorted, ?_, ?_, ?_, fun a b ha hb => hr.distinct a b (hother a ha).2 (hother b hb).2⟩
  · refine ((hperm.map Prod.snd).nodup_iff).mpr ?_
    rw [List.map_cons, List.nodup_cons]
    refine ⟨?_, hr.nodup⟩
    intro hin
    obtain ⟨entry, hentry, heq⟩ := List.mem_map.mp hin
    rw [← show entry.2 = key from heq, hr.loaded entry hentry] at hkey
    cases hkey
  · intro entry hentry
    obtain rfl | hold := (hmem entry).mp hentry
    · exact Function.update_self _ _ _
    · exact hloaded entry hold
  · intro other hout hposOther entry hentry
    obtain rfl | hold := (hmem entry).mp hentry
    · intro heq
      exact (hother other hout).1 (hr.distinct key other hkey (hother other hout).2 hpos heq).symm
    · exact hr.other other (hother other hout).2 hposOther entry hold

/-- A load that makes the order again keeps the agreement when nothing has changed
since the loads before it. -/
theorem load_iff {s : State κ} (hr : Recorded s) (h : Agrees s) {key : κ}
    (hkey : s.loaded key = false) (hpos : 0 < s.settings key) :
    Agrees (s.loadPinnedIndex key) ↔
      s.pinnedDialogs = s.pinnedDialogsAndIndexes.map Prod.snd ∧
        ∀ entry ∈ s.pinnedDialogsAndIndexes, s.pinnedIndex entry.2 ≠ s.settings key ∧
          (entry.1 < s.settings key ↔ s.pinnedIndex entry.2 < s.settings key) := by
  obtain ⟨hperm, hsorted, hsub⟩ := sort_spec (s.settings key, key) hr.sorted
    (hr.other key hkey hpos)
  have hrecorded := load_recorded hr hkey
  rw [loadPinnedIndex_pos hr hkey hpos] at hrecorded ⊢
  generalize hsort : (s.pinnedDialogsAndIndexes ++ [(s.settings key, key)]).insertionSort
    (fun a b => a.1 ≤ b.1) = sorted at *
  have hne : ∀ entry ∈ s.pinnedDialogsAndIndexes, entry.2 ≠ key := by
    rintro entry hentry heq
    rw [← heq, hr.loaded entry hentry] at hkey
    cases hkey
  have hnot : ∀ other ∈ s.pinnedDialogs, other ≠ key := by
    rintro other hin rfl
    rw [((h.mem_iff other).mp hin).1] at hkey
    cases hkey
  have hmem : ∀ entry, entry ∈ sorted ↔
      entry = (s.settings key, key) ∨ entry ∈ s.pinnedDialogsAndIndexes := by
    intro entry
    rw [hperm.mem_iff, List.mem_cons]
  constructor
  · intro h'
    have hincreasing : sorted.Pairwise fun a b =>
        Function.update s.pinnedIndex key (s.settings key) a.2 <
          Function.update s.pinnedIndex key (s.settings key) b.2 := by
      have hkeys := h'.increasing
      dsimp only at hkeys
      rwa [List.pairwise_map] at hkeys
    refine ⟨?_, ?_⟩
    · -- both lists have the same keys, in the order of their indexes
      have hkeys : s.pinnedDialogs.Perm (s.pinnedDialogsAndIndexes.map Prod.snd) := by
        rw [List.perm_ext_iff_of_nodup h.nodup hr.nodup]
        intro other
        obtain rfl | hother := eq_or_ne other key
        · refine iff_of_false (fun hin => hnot other hin rfl) ?_
          intro hin
          obtain ⟨entry, hentry, heq⟩ := List.mem_map.mp hin
          exact hne entry hentry heq
        · have hiff := h'.mem_iff other
          dsimp only at hiff
          rw [Function.update_of_ne hother, Function.update_of_ne hother, ← h.mem_iff] at hiff
          rw [← hiff, List.mem_map, List.mem_map]
          constructor
          · rintro ⟨entry, hentry, rfl⟩
            refine ⟨entry, ((hmem entry).mp hentry).resolve_left ?_, rfl⟩
            rintro rfl
            exact hother rfl
          · rintro ⟨entry, hentry, rfl⟩
            exact ⟨entry, (hmem entry).mpr (.inr hentry), rfl⟩
      refine hkeys.eq_of_pairwise (fun a b ha hb hab hba => absurd hab hba.asymm) h.increasing ?_
      refine List.pairwise_map.mpr ((hincreasing.sublist hsub).imp_of_mem ?_)
      intro a b ha hb hlt
      rwa [Function.update_of_ne (hne a ha), Function.update_of_ne (hne b hb)] at hlt
    · intro entry hentry
      have hnew := (hmem _).mpr (.inl rfl)
      have hold := (hmem entry).mpr (.inr hentry)
      have hbefore := lt_iff_of_pairwise hsorted hincreasing hold hnew
      have hbehind := lt_iff_of_pairwise hsorted hincreasing hnew hold
      dsimp only at hbefore hbehind
      rw [Function.update_self, Function.update_of_ne (hne entry hentry)] at hbefore hbehind
      have := hr.other key hkey hpos entry hentry
      exact ⟨by omega, hbefore⟩
  · rintro ⟨horder, hcompare⟩
    have hold : s.pinnedDialogsAndIndexes.Pairwise fun a b =>
        s.pinnedIndex a.2 < s.pinnedIndex b.2 := by
      have hkeys := h.increasing
      rwa [horder, List.pairwise_map] at hkeys
    refine ⟨hrecorded.nodup, ?_, ?_⟩
    · intro other
      dsimp only
      obtain rfl | hother := eq_or_ne other key
      · rw [Function.update_self, Function.update_self]
        exact iff_of_true (List.mem_map.mpr ⟨_, (hmem _).mpr (.inl rfl), rfl⟩) ⟨rfl, hpos⟩
      · rw [Function.update_of_ne hother, Function.update_of_ne hother, ← h.mem_iff, horder,
          List.mem_map, List.mem_map]
        constructor
        · rintro ⟨entry, hentry, rfl⟩
          refine ⟨entry, ((hmem entry).mp hentry).resolve_left ?_, rfl⟩
          rintro rfl
          exact hother rfl
        · rintro ⟨entry, hentry, rfl⟩
          exact ⟨entry, (hmem entry).mpr (.inr hentry), rfl⟩
    · dsimp only
      rw [List.pairwise_map]
      refine hsorted.imp_of_mem ?_
      intro a b ha hb hlt
      obtain rfl | ha := (hmem a).mp ha
      · obtain rfl | hb := (hmem b).mp hb
        · exact absurd hlt (lt_irrefl _)
        · have := hcompare b hb
          rw [Function.update_self, Function.update_of_ne (hne b hb)]
          dsimp only at hlt
          omega
      · obtain rfl | hb := (hmem b).mp hb
        · rw [Function.update_self, Function.update_of_ne (hne a ha)]
          exact (hcompare a ha).2.mp hlt
        · rw [Function.update_of_ne (hne a ha), Function.update_of_ne (hne b hb)]
          exact (lt_iff_of_pairwise hr.sorted hold ha hb).mp hlt

/-! ## Runs -/

theorem step_recorded {s s' : State κ} {e : Event κ} (hr : Recorded s) (h : Agrees s)
    (hstep : step s e = some s') : Recorded s' := by
  cases e with
  | load key =>
    rw [step] at hstep
    split at hstep
    · cases hstep
    · rename_i hkey
      rw [Option.some.injEq] at hstep
      exact hstep ▸ load_recorded hr (by simpa using hkey)
  | setPinned key pinned countMax =>
    rw [step] at hstep
    split at hstep
    swap
    · cases hstep
    rename_i hkey
    by_cases hin : key ∈ s.pinnedDialogs
    · cases pinned with
      | true =>
        rw [setIsPinned, if_pos rfl, if_pos hin] at hstep
        cases hstep
      | false =>
        obtain ⟨t, ht, -, -, hsame⟩ := unpin_right h hkey hin countMax
        rw [ht, Option.some.injEq] at hstep
        exact hstep ▸ hr.same hsame
    · cases pinned with
      | true =>
        by_cases hfull : countMax ≤ s.pinnedDialogs.length
        · obtain ⟨t, ht, -, -, hsame⟩ := pin_full h hkey hin hfull
          rw [ht, Option.some.injEq] at hstep
          exact hstep ▸ hr.same hsame
        · obtain ⟨t, ht, hsame, -⟩ := pin_more h hkey hin (not_le.mp hfull)
          rw [ht, Option.some.injEq] at hstep
          exact hstep ▸ hr.same hsame
      | false =>
        rw [setIsPinned, if_neg Bool.false_ne_true, if_neg hin, Option.some.injEq] at hstep
        exact hstep ▸ hr
  | reorder key1 key2 =>
    rw [step] at hstep
    have hkeys : key1 ∈ s.pinnedDialogs ∧ key2 ∈ s.pinnedDialogs ∧ key1 ≠ key2 := by
      rw [reorderTwoPinnedDialogs] at hstep
      split at hstep
      · rename_i hin
        refine ⟨List.idxOf_lt_length_iff.mp hin.1, List.idxOf_lt_length_iff.mp hin.2.1, ?_⟩
        rintro rfl
        exact hin.2.2 rfl
      · cases hstep
    obtain ⟨t, ht, hsame, -⟩ := reorder_spec h hkeys.1 hkeys.2.1 hkeys.2.2
    rw [ht, Option.some.injEq] at hstep
    exact hstep ▸ hr.same hsame

/-- The event leads to what it should exactly when its condition holds. -/
theorem step_iff {s : State κ} (hr : Recorded s) (h : Agrees s) (e : Event κ) :
    (∃ s', step s e = some s' ∧ Right e s') ↔ Meets s e := by
  have hone : ∀ {o : Option (State κ)} {t : State κ} {p : State κ → Prop}, o = some t →
      ((∃ s', o = some s' ∧ p s') ↔ p t) := by
    intro o t p ho
    rw [ho]
    simp
  cases e with
  | load key =>
    rw [Meets, step]
    by_cases hkey : s.loaded key = true
    · rw [if_pos hkey]
      simp [hkey]
    rw [if_neg hkey, hone rfl, Right]
    rw [Bool.not_eq_true] at hkey
    simp only [hkey, true_and]
    by_cases hzero : s.settings key = 0
    · simp [load_zero h hkey hzero, hzero]
    · rw [load_iff hr h hkey (Nat.pos_of_ne_zero hzero)]
      simp [Nat.pos_of_ne_zero hzero]
  | setPinned key pinned countMax =>
    rw [Meets, step]
    by_cases hkey : s.loaded key = true
    swap
    · rw [if_neg hkey]
      simp [hkey]
    rw [if_pos hkey]
    simp only [hkey, true_and]
    cases pinned with
    | true =>
      rw [if_pos rfl]
      by_cases hin : key ∈ s.pinnedDialogs
      · rw [setIsPinned, if_pos rfl, if_pos hin]
        simp [hin]
      by_cases hfull : countMax ≤ s.pinnedDialogs.length
      · obtain ⟨t, ht, hagrees, hnumbered, -⟩ := pin_full h hkey hin hfull
        rw [hone ht]
        exact iff_of_true ⟨hagrees, fun _ => hnumbered⟩ ⟨hin, .inl hfull⟩
      · obtain ⟨t, ht, -, hnecessary, henough⟩ := pin_more h hkey hin (not_le.mp hfull)
        rw [hone ht]
        constructor
        · exact fun hright => ⟨hin, .inr (hnecessary hright.1)⟩
        · rintro ⟨-, hle | hnumbered⟩
          · exact absurd hle hfull
          · exact ⟨(henough hnumbered).1, fun _ => (henough hnumbered).2⟩
    | false =>
      rw [if_neg Bool.false_ne_true]
      by_cases hin : key ∈ s.pinnedDialogs
      · obtain ⟨t, ht, hagrees, hnumbered, -⟩ := unpin_right h hkey hin countMax
        rw [hone ht]
        exact iff_of_true ⟨hagrees, fun _ => hnumbered⟩ (.inl hin)
      · rw [setIsPinned, if_neg Bool.false_ne_true, if_neg hin, hone rfl, Right]
        simp only [h, true_and, hin, false_or]
        exact imp_iff_not_or
  | reorder key1 key2 => exact reorder_iff h key1 key2

omit [DecidableEq κ] in
theorem Fresh.recorded {s : State κ} (h : Fresh s) : Recorded s where
  sorted := by
    rw [h.pinnedDialogsAndIndexes]
    exact List.Pairwise.nil
  nodup := by
    rw [h.pinnedDialogsAndIndexes]
    exact List.nodup_nil
  loaded := by simp [h.pinnedDialogsAndIndexes]
  other := by simp [h.pinnedDialogsAndIndexes]
  distinct a b _ _ := h.distinct a b

omit [DecidableEq κ] in
theorem Fresh.agrees {s : State κ} (h : Fresh s) : Agrees s where
  nodup := by
    rw [h.pinnedDialogs]
    exact List.nodup_nil
  mem_iff key := by simp [h.pinnedDialogs, h.loaded key]
  increasing := by
    rw [h.pinnedDialogs]
    exact List.Pairwise.nil

theorem run_append (s : State κ) (before after : List (Event κ)) :
    run s (before ++ after) = (run s before).bind fun s => run s after :=
  List.foldlM_append

omit [DecidableEq κ] in
theorem Right.agrees {e : Event κ} {s : State κ} (h : Right e s) : Agrees s := by
  cases e with
  | load key => exact h
  | setPinned key pinned countMax => exact h.1
  | reorder key1 key2 => exact h.1

/-- A run whose events all lead to what they should keeps the records as well. -/
theorem run_agrees {s₀ : State κ} (hfresh : Fresh s₀) (events : List (Event κ))
    (h : ∀ before e after, events = before ++ e :: after → ∀ s, Recorded s → Agrees s →
      run s₀ before = some s → ∃ s', step s e = some s' ∧ Right e s') :
    ∃ s, run s₀ events = some s ∧ Recorded s ∧ Agrees s := by
  induction events using List.reverseRecOn with
  | nil => exact ⟨s₀, rfl, hfresh.recorded, hfresh.agrees⟩
  | append_singleton events e ih =>
    obtain ⟨s, hs, hr, hagrees⟩ := ih fun before e' after heq =>
      h before e' (after ++ [e]) (by rw [heq, List.append_assoc, List.cons_append])
    obtain ⟨s', hs', hright⟩ := h events e [] rfl s hr hagrees hs
    refine ⟨s', ?_, step_recorded hr hagrees hs', hright.agrees⟩
    rw [run_append, hs, Option.bind_some, run, List.foldlM_cons, hs']
    rfl

/-- In a run from before the first entry every event leads to what it should exactly
when every event meets its condition in the state that it comes in. -/
theorem run_right_iff (s₀ : State κ) (hfresh : Fresh s₀) (events : List (Event κ)) :
    (∀ before e after, events = before ++ e :: after →
        ∃ s s', run s₀ before = some s ∧ step s e = some s' ∧ Right e s') ↔
      ∀ before e after, events = before ++ e :: after →
        ∀ s, run s₀ before = some s → Meets s e := by
  constructor
  · intro h before e after heq s hs
    obtain ⟨t, ht, hr, hagrees⟩ := run_agrees hfresh before (fun b e' a hb t _ _ ht => by
      obtain ⟨u, u', hu, hstep⟩ := h b e' (a ++ e :: after) (by rw [heq, hb, List.append_assoc]; rfl)
      rw [ht, Option.some.injEq] at hu
      exact ⟨u', hu ▸ hstep⟩)
    obtain ⟨u, u', hu, hstep⟩ := h before e after heq
    rw [hs, Option.some.injEq] at hu ht
    subst hu ht
    exact (step_iff hr hagrees e).mp ⟨u', hstep⟩
  · intro h before e after heq
    obtain ⟨s, hs, hr, hagrees⟩ := run_agrees hfresh before (fun b e' a hb t hr hagrees ht =>
      (step_iff hr hagrees e').mpr
        (h b e' (a ++ e :: after) (by rw [heq, hb, List.append_assoc]; rfl) t ht))
    obtain ⟨s', hs', hright⟩ := (step_iff hr hagrees e).mpr (h before e after heq s hs)
    exact ⟨s, s', hs, hs', hright⟩

/-- Key 1 is saved as the first, key 2 is not. -/
def savedOne : State ℕ where
  settings key := if key = 1 then 1 else 0
  loaded _ := false
  pinnedIndex _ := 0
  pinnedDialogsAndIndexes := []
  pinnedDialogs := []

theorem savedOne_fresh : Fresh savedOne where
  loaded _ := rfl
  pinnedDialogs := rfl
  pinnedDialogsAndIndexes := rfl
  distinct a b ha heq := by
    simp only [savedOne] at ha heq
    split_ifs at ha heq <;> omega

theorem run_right_iff_savedOne :
    (∀ before e after, [.load 1, .load 2, .setPinned 2 true 5] = before ++ e :: after →
        ∃ s s', run savedOne before = some s ∧ step s e = some s' ∧ Right e s') ↔
      ∀ before e after, [.load 1, .load 2, .setPinned 2 true 5] = before ++ e :: after →
        ∀ s, run savedOne before = some s → Meets s e :=
  run_right_iff savedOne savedOne_fresh [.load 1, .load 2, .setPinned 2 true 5]

/-- A key that was pinned before a saved one is loaded is dropped by that. -/
theorem load_drops_pinned :
    ¬ ∀ s₀ : State ℕ, Fresh s₀ → ∀ (events : List (Event ℕ)) (s : State ℕ) (e : Event ℕ),
      run s₀ events = some s → Possible s e → ∃ s', step s e = some s' ∧ Right e s' := by
  intro h
  obtain ⟨s', hs', hright⟩ := h savedOne savedOne_fresh [.load 2, .setPinned 2 true 5] _ (.load 1) rfl
    (by rfl)
  have hstep : step _ (.load 1) = some s' := hs'
  rw [step, if_neg (by decide), Option.some.injEq] at hstep
  have hmem := (hright.mem_iff 2).mpr (by rw [← hstep]; decide)
  rw [← hstep] at hmem
  revert hmem
  decide

end Bettergram.Data.PinnedDialogs
