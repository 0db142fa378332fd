import Bettergram.Dialogs.DialogsListOperations

/-! # Runs of the list of dialogs

A run keeps the list well formed when rows are cleared only from an empty list,
and nothing is looked up more than one row behind the end while the end is what
was looked up last.
-/

namespace Bettergram.Dialogs
open Foundation Foundation.Nodes

variable {K : Type} {s : DialogsList K} {l : List ℕ}

namespace DialogsList

/-! ## Lookups -/

/-- The row at an index and its links. -/
theorem WellFormed.at_index (h : s.WellFormed l) {i r : ℕ} (hr : (l ++ [last])[i]? = some r) :
    s.pos r = i ∧ s.nodes.prev r = (if i = 0 then none else (l ++ [last])[i - 1]?) ∧
      s.nodes.next r = (l ++ [last])[i + 1]? := by
  obtain ⟨hi, rfl⟩ := List.getElem?_eq_some_iff.mp hr
  have hsplit : l ++ [last] = (l ++ [last]).take i ++ (l ++ [last])[i] :: (l ++ [last]).drop (i + 1) := by
    rw [← List.drop_eq_getElem_cons hi, List.take_append_drop]
  have hlinked := h.linked
  have hindexed := h.indexed
  rw [hsplit] at hlinked hindexed
  obtain ⟨hprev, hnext⟩ := hlinked.at
  refine ⟨?_, ?_, ?_⟩
  · rw [hindexed.at, zero_add, List.length_take, min_eq_left hi.le]
  · rw [hprev, List.getLast?_take]
    split_ifs
    · rfl
    · rw [List.getElem?_eq_getElem (by omega)]
      rfl
  · rw [hnext, List.head?_drop]

theorem WellFormed.follow_index (h : s.WellFormed l) {i : ℕ} (hi : i ≤ l.length) :
    ∃ r, (l ++ [last])[i]? = some r ∧ s.nodes.follow (l ++ [last])[i]? = some r := by
  have hlt : i < (l ++ [last]).length := by
    rw [List.length_append, List.length_singleton]
    omega
  refine ⟨(l ++ [last])[i], List.getElem?_eq_getElem hlt, ?_⟩
  rw [List.getElem?_eq_getElem hlt]
  exact follow_some (h.alive _ (List.getElem_mem hlt))

/-- The end is what is at the index behind the rows. -/
theorem WellFormed.eq_last_iff (h : s.WellFormed l) {i r : ℕ} (hr : (l ++ [last])[i]? = some r) :
    r = last ↔ i = l.length := by
  constructor
  · rintro rfl
    by_contra hi
    have hlt : i < (l ++ [last]).length := (List.getElem?_eq_some_iff.mp hr).1
    rw [List.length_append, List.length_singleton] at hlt
    rw [List.getElem?_append_left (by omega)] at hr
    exact h.not_last (List.mem_of_getElem? hr)
  · rintro rfl
    rw [List.getElem?_concat_length] at hr
    exact (Option.some.inj hr).symm

theorem goBack_spec (h : s.WellFormed l) {p i r : ℕ} (hr : (l ++ [last])[i]? = some r) {rounds : ℕ}
    (hrounds : i < rounds) : ∃ r', s.goBack p rounds r = some r' ∧ (l ++ [last])[min i p]? = some r' := by
  induction rounds generalizing i r with
  | zero => omega
  | succ rounds ih =>
    obtain ⟨hpos, hprev, -⟩ := h.at_index hr
    have hle : i ≤ l.length := by
      have := (List.getElem?_eq_some_iff.mp hr).1
      rw [List.length_append, List.length_singleton] at this
      omega
    rw [goBack, hpos]
    by_cases hlt : p < i
    · obtain ⟨j, rfl⟩ : ∃ j, i = j + 1 := ⟨i - 1, by omega⟩
      have hbegin : some r ≠ s.begin := by
        intro heq
        rw [h.begin_eq, List.head?_eq_getElem?] at heq
        have := (h.at_index heq.symm).1
        rw [hpos] at this
        omega
      obtain ⟨x, hx, hfollow⟩ := h.follow_index (Nat.le_of_succ_le hle)
      rw [if_pos ⟨by exact_mod_cast hlt, hbegin⟩, hprev, if_neg (Nat.succ_ne_zero j),
        Nat.add_sub_cancel, hfollow, Option.bind_some]
      obtain ⟨r', hgo, hr'⟩ := ih hx (by omega)
      refine ⟨r', hgo, ?_⟩
      rwa [show min (j + 1) p = min j p by omega]
    · rw [if_neg fun hc => hlt (by exact_mod_cast hc.1)]
      exact ⟨r, rfl, by rwa [min_eq_left (by omega)]⟩

theorem goForward_spec (h : s.WellFormed l) {p i r : ℕ} (hr : (l ++ [last])[i]? = some r)
    (hi : i ≤ p) {rounds : ℕ} (hrounds : l.length - i < rounds) (hfits : i = l.length → p ≤ l.length) :
    ∃ r', s.goForward p rounds r = some r' ∧
      (l ++ [last])[if i = l.length then i else min p (l.length - 1)]? = some r' := by
  induction rounds generalizing i r with
  | zero => omega
  | succ rounds ih =>
    obtain ⟨hpos, -, hnext⟩ := h.at_index hr
    have hle : i ≤ l.length := by
      have := (List.getElem?_eq_some_iff.mp hr).1
      rw [List.length_append, List.length_singleton] at this
      omega
    rw [goForward, hpos, hnext]
    by_cases hlast : i = l.length
    · have hp := hfits hlast
      rw [if_neg fun hc => by have : (i : ℤ) + 1 ≤ p := hc.1; omega, if_pos hlast]
      exact ⟨r, rfl, hr⟩
    · rw [if_neg hlast]
      obtain ⟨x, hx, hfollow⟩ := h.follow_index (show i + 1 ≤ l.length by omega)
      by_cases hstop : i + 1 ≤ p ∧ i + 1 < l.length
      · have hne : (l ++ [last])[i + 1]? ≠ some last := fun heq => by
          have := (h.eq_last_iff heq).mp rfl
          omega
        rw [if_pos ⟨by exact_mod_cast hstop.1, hne⟩, hfollow, Option.bind_some]
        obtain ⟨r', hgo, hr'⟩ := ih hx hstop.1 (by omega) (by omega)
        rw [if_neg (by omega)] at hr'
        exact ⟨r', hgo, hr'⟩
      · have hmin : min p (l.length - 1) = i := by omega
        rw [hmin]
        refine ⟨r, if_neg fun hc => hstop ⟨by exact_mod_cast hc.1, ?_⟩, hr⟩
        by_contra hend
        refine hc.2 ?_
        rw [show i + 1 = l.length by omega, List.getElem?_concat_length]

/-- The condition of a lookup: the cursor is at the end only for what is at most one row behind. -/
def FitsLookup (y h : ℤ) (s : DialogsList K) : Prop :=
  s.isEmpty ∨ s.current ≠ some last ∨ posAtY y h ≤ s.count

instance (y h : ℤ) (s : DialogsList K) : Decidable (s.FitsLookup y h) :=
  inferInstanceAs (Decidable (_ ∨ _ ∨ _))

theorem posAtY_nonneg {y h : ℤ} (hh : 0 < h) : 0 ≤ posAtY y h := by
  rw [posAtY]
  split_ifs with hy
  · exact Int.ediv_nonneg hy.le hh.le
  · exact le_rfl

/-- The cursor is put to the row at the index, to the last row when there is none, or left at the
end. -/
theorem adjustCurrent_spec (h : s.WellFormed l) {y height : ℤ} {p : ℕ} (hp : posAtY y height = p)
    (hfits : s.FitsLookup y height) (hempty : ¬s.isEmpty) : ∃ i z,
    s.adjustCurrent y height = some { s with current := some z } ∧ (l ++ [last])[i]? = some z ∧
      (i = l.length ∧ p = l.length ∨ i = min p (l.length - 1) ∧ i < l.length) := by
  rw [FitsLookup, hp, h.count_eq] at hfits
  obtain ⟨r, hr, hcurrent⟩ := h.current
  obtain ⟨i, hr⟩ := List.mem_iff_getElem?.mp hr
  have hpos : 0 < l.length := by
    rw [← h.count_eq]
    exact Nat.pos_of_ne_zero hempty
  have hi : i ≤ l.length := by
    have := (List.getElem?_eq_some_iff.mp hr).1
    rw [List.length_append, List.length_singleton] at this
    omega
  have hfollow : s.nodes.follow s.current = some r := by
    rw [hcurrent]
    exact follow_some (h.alive r (List.mem_of_getElem? hr))
  obtain ⟨x, hback, hx⟩ := goBack_spec h (p := p) hr (show i < s.rounds by
    rw [h.rounds_eq]
    omega)
  have hend : min i p = l.length → p ≤ l.length := fun hmin => by
    have hil : i = l.length := by omega
    rcases hfits with hfits | hfits | hfits
    · exact absurd hfits hempty
    · exact absurd (by rw [hcurrent, (h.eq_last_iff hr).mpr hil]) hfits
    · exact_mod_cast hfits
  obtain ⟨z, hforward, hz⟩ := goForward_spec h hx (min_le_right i p)
    (show l.length - min i p < s.rounds by
      rw [h.rounds_eq]
      omega) hend
  refine ⟨_, z, ?_, hz, ?_⟩
  · rw [adjustCurrent, if_neg hempty, hp, hfollow, Option.bind_eq_bind, Option.bind_some, hback,
      Option.bind_some, hforward]
    rfl
  · split_ifs with hmin
    · exact .inl ⟨hmin, by have := hend hmin; omega⟩
    · exact .inr ⟨rfl, by omega⟩

/-- A lookup gives the row at the index, when there is one. -/
theorem rowAtY_spec (h : s.WellFormed l) {y height : ℤ} (hheight : 0 < height)
    (hfits : s.FitsLookup y height) :
    ∃ s', s.rowAtY y height = some (l[(posAtY y height).toNat]?, s') ∧ s'.WellFormed l := by
  obtain ⟨p, hp⟩ := Int.eq_ofNat_of_zero_le (posAtY_nonneg (y := y) hheight)
  rw [rowAtY, hp, Int.toNat_natCast]
  by_cases hempty : s.isEmpty
  · obtain rfl : l = [] := List.length_eq_zero_iff.mp (h.count_eq.symm.trans hempty)
    have hlast : s.current = some last := by
      obtain ⟨r, hr, hcurrent⟩ := h.current
      rw [hcurrent, List.mem_singleton.mp hr]
    refine ⟨s, ?_, h⟩
    rw [adjustCurrent, if_pos hempty, Option.bind_eq_bind, Option.bind_some, if_pos hlast]
    rfl
  · obtain ⟨i, z, hadjust, hz, hi⟩ := adjustCurrent_spec h hp hfits hempty
    refine ⟨{ s with current := some z }, ?_, h.withCurrent (List.mem_of_getElem? hz)⟩
    rw [hadjust, Option.bind_eq_bind, Option.bind_some]
    dsimp only
    rcases hi with ⟨hi, hpi⟩ | ⟨hi, hlt⟩
    · rw [if_pos (congrArg some ((h.eq_last_iff hz).mpr hi)), List.getElem?_eq_none hpi.ge]
    · have hzlast : z ≠ last := (h.eq_last_iff hz).not.mpr hlt.ne
      have hzfollow : s.nodes.follow (some z) = some z :=
        follow_some (h.alive z (List.mem_of_getElem? hz))
      rw [if_neg fun heq => hzlast (Option.some.inj heq), hzfollow, Option.bind_eq_bind,
        Option.bind_some, (h.at_index hz).1]
      rw [List.getElem?_append_left hlt] at hz
      by_cases hp : p < l.length
      · obtain rfl : i = p := by omega
        rw [if_neg (not_not.mpr rfl), hz]
      · rw [if_pos (by omega), List.getElem?_eq_none (by omega)]

/-- From the end, the lookup of what is more than one row behind follows a null pointer. -/
theorem rowAtY_null (h : s.WellFormed l) {y height : ℤ} (hfits : ¬s.FitsLookup y height) :
    s.rowAtY y height = none := by
  rw [FitsLookup, not_or, not_or, not_not, not_le] at hfits
  obtain ⟨hempty, hcurrent, hp⟩ := hfits
  have hlast : (l ++ [last])[l.length]? = some last := List.getElem?_concat_length
  obtain ⟨hpos, -, hnext⟩ := h.at_index hlast
  have hend : (l ++ [last])[l.length + 1]? = none := List.getElem?_eq_none (by simp)
  have hfollow : s.nodes.follow (some last) = some last := follow_some (h.alive last (by simp))
  rw [h.count_eq] at hp
  have hback : s.goBack (posAtY y height) s.rounds last = some last := by
    rw [h.rounds_eq, goBack, if_neg fun hc => by rw [hpos] at hc; exact absurd hc.1 (by omega)]
  have hforward : s.goForward (posAtY y height) s.rounds last = none := by
    rw [h.rounds_eq, goForward, hpos, hnext, hend, if_pos ⟨by omega, by simp⟩]
    rfl
  have hadjust : s.adjustCurrent y height = none := by
    rw [adjustCurrent, if_neg hempty, hcurrent, hfollow, Option.bind_eq_bind, Option.bind_some, hback,
      Option.bind_some, hforward]
    rfl
  rw [rowAtY, hadjust]
  rfl

/-! ## Runs -/

/-- What is done to the list, with the sort keys and the comparison of names of that time. -/
inductive Event (K : Type)
  | addToEnd (sortKey : K → ℕ) (key : K)
  | addByName (compare : K → K → ℤ) (key : K)
  | adjustByName (compare : K → K → ℤ) (key : K)
  | adjustByPos (sortKey : K → ℕ) (row : ℕ)
  | moveToTop (key : K)
  | del (key : K)
  | clear
  | rowAtY (y h : ℤ)

/-- A row of the list. -/
def IsRow (row : ℕ) (s : DialogsList K) [DecidableEq K] : Prop :=
  (s.key row).any fun key => s.rowByKey key = some row

instance (row : ℕ) (s : DialogsList K) [DecidableEq K] : Decidable (s.IsRow row) :=
  inferInstanceAs (Decidable (_ = _))

variable [DecidableEq K]

def step : Event K → DialogsList K → Option (DialogsList K)
  | .addToEnd sortKey key, s => (s.addToEnd sortKey key).map Prod.snd
  | .addByName compare key, s => s.addByName compare key
  | .adjustByName compare key, s => s.adjustByName compare key
  | .adjustByPos sortKey row, s => s.adjustByPos sortKey row
  | .moveToTop key, s => s.moveToTop key
  | .del key, s => s.del key
  | .clear, s => s.clear
  | .rowAtY y h, s => (s.rowAtY y h).map Prod.snd

def run : List (Event K) → DialogsList K → Option (DialogsList K)
  | [], s => some s
  | event :: events, s => (s.step event).bind (run events)

/-- What a caller has to see to: an added key is new, a row is of the list, rows have a height. -/
def Allowed : Event K → DialogsList K → Prop
  | .addToEnd _ key, s => s.rowByKey key = none
  | .addByName _ key, s => s.rowByKey key = none
  | .adjustByPos _ row, s => s.IsRow row
  | .rowAtY _ h, _ => 0 < h
  | _, _ => True

/-- When an event finds the list as it has to be: nothing is cleared from a list with rows, and a
lookup from the end is for what is at most one row behind. -/
def Fits : Event K → DialogsList K → Prop
  | .clear, s => s.isEmpty
  | .rowAtY y h, s => s.FitsLookup y h
  | _, _ => True

instance : (event : Event K) → (s : DialogsList K) → Decidable (s.Allowed event)
  | .addToEnd _ _, _ => inferInstanceAs (Decidable (_ = _))
  | .addByName _ _, _ => inferInstanceAs (Decidable (_ = _))
  | .adjustByPos _ _, _ => inferInstanceAs (Decidable (IsRow _ _))
  | .rowAtY _ _, _ => inferInstanceAs (Decidable (_ < _))
  | .adjustByName _ _, _ => inferInstanceAs (Decidable True)
  | .moveToTop _, _ => inferInstanceAs (Decidable True)
  | .del _, _ => inferInstanceAs (Decidable True)
  | .clear, _ => inferInstanceAs (Decidable True)

instance : (event : Event K) → (s : DialogsList K) → Decidable (s.Fits event)
  | .clear, _ => inferInstanceAs (Decidable (isEmpty _))
  | .rowAtY _ _, _ => inferInstanceAs (Decidable (FitsLookup _ _ _))
  | .addToEnd _ _, _ => inferInstanceAs (Decidable True)
  | .addByName _ _, _ => inferInstanceAs (Decidable True)
  | .adjustByPos _ _, _ => inferInstanceAs (Decidable True)
  | .adjustByName _ _, _ => inferInstanceAs (Decidable True)
  | .moveToTop _, _ => inferInstanceAs (Decidable True)
  | .del _, _ => inferInstanceAs (Decidable True)

/-- A test that holds of each event in the state it comes in. -/
def Throughout (test : Event K → DialogsList K → Prop) : List (Event K) → DialogsList K → Prop
  | [], _ => True
  | event :: events, s => test event s ∧ ∀ s' ∈ s.step event, Throughout test events s'

instance decidableThroughout (test : Event K → DialogsList K → Prop)
    [∀ event s, Decidable (test event s)] :
    (events : List (Event K)) → (s : DialogsList K) → Decidable (Throughout test events s)
  | [], _ => inferInstanceAs (Decidable True)
  | _ :: events, _ =>
    have := decidableThroughout test events
    inferInstanceAs (Decidable (_ ∧ _))

theorem WellFormed.mem_of_isRow (h : s.WellFormed l) {row : ℕ} (hrow : s.IsRow row) : row ∈ l := by
  rw [IsRow] at hrow
  cases hkey : s.key row with
  | none =>
    rw [hkey] at hrow
    cases hrow
  | some key =>
    rw [hkey, Option.any_some, decide_eq_true_eq] at hrow
    exact ((h.rows key row).mp hrow).1

theorem step_spec (h : s.WellFormed l) (event : Event K) (hallowed : s.Allowed event)
    (hfits : s.Fits event) : ∃ s' l', s.step event = some s' ∧ s'.WellFormed l' := by
  cases event with
  | addToEnd sortKey key =>
    obtain ⟨s', l', hadd, h', -⟩ := addToEnd_spec h hallowed sortKey
    exact ⟨s', l', by rw [step, hadd]; rfl, h'⟩
  | addByName compare key =>
    rw [step, addByName]
    split_ifs with hmode
    · exact ⟨s, l, rfl, h⟩
    · obtain ⟨s₁, l₁, hadd, h₁, hperm⟩ := addToEnd_spec h hallowed fun _ => 0
      obtain ⟨a, b, rfl⟩ := List.append_of_mem (hperm.mem_iff.mpr (by simp : s.fresh ∈ l ++ [s.fresh]))
      obtain ⟨s', l', hmove, h', -⟩ := moveWhile_moves h₁ (fun other => 0 < compare other key)
        fun other => compare other key < 0
      refine ⟨s', l', ?_, h'⟩
      rw [hadd]
      exact hmove
  | adjustByName compare key =>
    rw [step, adjustByName]
    split_ifs with hmode
    · exact ⟨s, l, rfl, h⟩
    · cases hkey : s.rowByKey key with
      | none => exact ⟨s, l, rfl, h⟩
      | some row =>
        obtain ⟨a, b, rfl⟩ := List.append_of_mem ((h.rows key row).mp hkey).1
        obtain ⟨s', l', hmove, h', -⟩ := moveWhile_moves h (fun other => compare other key < 0)
          fun other => compare other key < 0
        exact ⟨s', l', hmove, h'⟩
  | adjustByPos sortKey row =>
    obtain ⟨a, b, rfl⟩ := List.append_of_mem (h.mem_of_isRow hallowed)
    obtain ⟨s', l', hadjust, h', -⟩ := adjustByPos_moves h sortKey
    exact ⟨s', l', hadjust, h'⟩
  | moveToTop key =>
    rw [step, moveToTop]
    cases hkey : s.rowByKey key with
    | none => exact ⟨s, l, rfl, h⟩
    | some row =>
      obtain ⟨a, b, rfl⟩ := List.append_of_mem ((h.rows key row).mp hkey).1
      obtain ⟨first, hfirst, hchange⟩ : ∃ first, s.begin = some first ∧
          (first = row ∨ ∃ a' m, a = a' ++ first :: m) := by
        rw [h.begin_eq]
        cases a with
        | nil => exact ⟨row, rfl, .inl rfl⟩
        | cons x a => exact ⟨x, rfl, .inr ⟨[], a, rfl⟩⟩
      have hfollow : s.nodes.follow (some first) = some first :=
        follow_some (h.alive first (List.mem_of_head? (h.begin_eq.symm.trans hfirst)))
      obtain ⟨moved, s', l', hinsert, h', -, -⟩ := insertBefore_moves h hchange
      refine ⟨s', l', ?_, h'⟩
      dsimp only
      rw [hfirst, hfollow, Option.bind_eq_bind, Option.bind_some, hinsert]
      rfl
  | del key => exact del_spec h key
  | clear =>
    obtain rfl : l = [] := List.length_eq_zero_iff.mp (h.count_eq.symm.trans hfits)
    have hbegin : s.begin = some last := h.begin_eq
    refine ⟨{ s with current := s.begin, rowByKey := fun _ => none, count := 0 }, [], ?_, ?_⟩
    · rw [step, clear, rounds, deleteRows, if_pos hbegin]
      rfl
    · refine { h with count_eq := rfl, current := ⟨last, by simp, hbegin⟩, rows := ?_ }
      simp
  | rowAtY y height =>
    obtain ⟨s', hrow, h'⟩ := rowAtY_spec h hallowed hfits
    exact ⟨s', l, by rw [step, hrow]; rfl, h'⟩

/-- A run whose events fit keeps the list well formed, and lookups that fit give the rows. -/
theorem dialogs_wellFormed (sortMode : SortMode) (events : List (Event K))
    (hallowed : Throughout (fun event s => s.Allowed event) events (new sortMode))
    (hfits : Throughout (fun event s => s.Fits event) events (new sortMode)) :
    ∃ s l, (new sortMode).run events = some s ∧ s.WellFormed l ∧
      ∀ y h, 0 < h → s.FitsLookup y h →
        ∃ s', s.rowAtY y h = some (l[(posAtY y h).toNat]?, s') := by
  suffices hrun : ∀ (s : DialogsList K) (l : List ℕ), s.WellFormed l →
      Throughout (fun event s => s.Allowed event) events s →
      Throughout (fun event s => s.Fits event) events s →
      ∃ s' l', s.run events = some s' ∧ s'.WellFormed l' by
    obtain ⟨s, l, hs, h⟩ := hrun _ _ (new_wellFormed sortMode) hallowed hfits
    exact ⟨s, l, hs, h, fun y height hheight hlookup =>
      (rowAtY_spec h hheight hlookup).imp fun _ hspec => hspec.1⟩
  clear hallowed hfits
  induction events with
  | nil => exact fun s l h _ _ => ⟨s, l, rfl, h⟩
  | cons event events ih =>
    intro s l h hallowed hfits
    obtain ⟨s', l', hstep, h'⟩ := step_spec h event hallowed.1 hfits.1
    rw [run, hstep, Option.bind_some]
    exact ih s' l' h' (hallowed.2 s' hstep) (hfits.2 s' hstep)

/-- Two rows are added and moved, the last is looked up, and the one behind is not there. -/
def lookups : List (Event ℕ) :=
  [.addToEnd id 1, .addToEnd id 2, .rowAtY 10 10, .rowAtY 20 10, .del 2, .moveToTop 1]

theorem dialogs_wellFormed_lookups : ∃ s l, (new .Date).run lookups = some s ∧ s.WellFormed l := by
  obtain ⟨s, l, hs, h, -⟩ := dialogs_wellFormed .Date lookups (by decide) (by decide)
  exact ⟨s, l, hs, h⟩

/-- The row that was looked up last is deleted, and then one two rows behind the end looked up. -/
def lookupBehind : List (Event ℕ) :=
  [.addToEnd id 2, .addToEnd id 1, .rowAtY 10 10, .del 1, .rowAtY 20 10]

def clearRows : List (Event ℕ) := [.addToEnd id 1, .clear]

/-- Without the condition, one run follows a null pointer, and another leaves a wrong position. -/
theorem dialogs_not_wellFormed :
    (Throughout (fun event s => s.Allowed event) lookupBehind (new .Date) ∧
      (new .Date).run lookupBehind = none) ∧
    Throughout (fun event s => s.Allowed event) clearRows (new .Date) ∧
      ∃ s, (new .Date).run clearRows = some s ∧ ¬∃ l, s.WellFormed l := by
  refine ⟨⟨by decide, by rfl⟩, by decide, ?_⟩
  obtain ⟨s, hs, hcount, hpos⟩ : ∃ s, (new .Date).run clearRows = some s ∧ s.count = 0 ∧
    s.pos last = 1 := ⟨_, rfl, rfl, rfl⟩
  refine ⟨s, hs, fun hl => ?_⟩
  obtain ⟨l, h⟩ := hl
  obtain rfl : l = [] := List.length_eq_zero_iff.mp (h.count_eq.symm.trans hcount)
  have hzero : s.pos last = 0 := h.indexed.1
  rw [hpos] at hzero
  cases hzero

end DialogsList

end Bettergram.Dialogs
