import Bettergram.Dialogs.DialogsListOperations
import Bettergram.Dialogs.DialogsListRuns

/-! # The order of the rows

A row that is out of order goes back over what should be behind it, or else
forward over what should be in front of it, and the rows are in order again.
-/

namespace Bettergram.Dialogs
open Foundation Foundation.Nodes

/-! ## One more in an ordered list -/

section Ordered

variable {R : Type} [LinearOrder R] {rank : ℕ → R} {a b : List ℕ} {row : ℕ}

def Ordered (rank : ℕ → R) (l : List ℕ) : Prop := l.Pairwise fun x y => rank x ≤ rank y

/-- One more fits between what is just before it and what is just behind. -/
theorem ordered_insert_iff : Ordered rank (a ++ row :: b) ↔ Ordered rank (a ++ b) ∧
    (∀ x ∈ a.getLast?, rank x ≤ rank row) ∧ ∀ x ∈ b.head?, rank row ≤ rank x := by
  constructor
  · intro h
    obtain ⟨-, hb, hab⟩ := List.pairwise_append.mp h
    refine ⟨h.sublist (List.Sublist.append_left (List.sublist_cons_self row b) a), ?_, ?_⟩
    · exact fun x hx => hab x (List.mem_of_getLast? hx) row (by simp)
    · exact fun x hx => (List.pairwise_cons.mp hb).1 x (List.mem_of_head? hx)
  · rintro ⟨h, hlast, hhead⟩
    obtain ⟨ha, hb, hab⟩ := List.pairwise_append.mp h
    have hbefore : ∀ x ∈ a, rank x ≤ rank row := by
      intro x hx
      cases a using List.reverseRecOn with
      | nil => exact absurd hx (by simp)
      | append_singleton a y =>
        have hy := hlast y (by simp)
        rcases List.mem_append.mp hx with hx | hx
        · exact ((List.pairwise_append.mp ha).2.2 x hx y (by simp)).trans hy
        · exact List.mem_singleton.mp hx ▸ hy
    have hbehind : ∀ x ∈ b, rank row ≤ rank x := by
      intro x hx
      cases b with
      | nil => exact absurd hx (by simp)
      | cons y b =>
        have hy := hhead y (by simp)
        rcases List.mem_cons.mp hx with rfl | hx
        · exact hy
        · exact hy.trans ((List.pairwise_cons.mp hb).1 x hx)
    refine List.pairwise_append.mpr ⟨ha, List.pairwise_cons.mpr ⟨hbehind, hb⟩, fun x hx y hy => ?_⟩
    rcases List.mem_cons.mp hy with rfl | hy
    · exact hbefore x hx
    · exact hab x hx y hy

end Ordered

namespace DialogsList

variable {K : Type} {s s' : DialogsList K} {l a b m : List ℕ} {row : ℕ}

/-! ## The keys stay -/

theorem moveUp_key {till : Option ℕ} {rounds n : ℕ} (h : moveUp row till rounds n s = some s') :
    s'.key = s.key := by
  induction rounds generalizing n s with
  | zero => exact absurd h (by simp [moveUp])
  | succ rounds ih =>
    rw [moveUp] at h
    split_ifs at h
    · rw [← Option.some.inj h]
    · obtain ⟨next, -, h⟩ := Option.bind_eq_some_iff.mp h
      exact (ih h).trans rfl

theorem moveDown_key {rounds : ℕ} {n : Option ℕ} (h : moveDown row rounds n s = some s') :
    s'.key = s.key := by
  induction rounds generalizing n s with
  | zero => exact absurd h (by simp [moveDown])
  | succ rounds ih =>
    rw [moveDown] at h
    split_ifs at h
    · rw [← Option.some.inj h]
    · obtain ⟨next, -, h⟩ := Option.bind_eq_some_iff.mp h
      exact (ih h).trans rfl

theorem remove_key (h : s.remove row = some s') : s'.key = s.key := by
  rw [remove] at h
  obtain ⟨next, -, h⟩ := Option.bind_eq_some_iff.mp h
  obtain ⟨nodes, -, h⟩ := Option.bind_eq_some_iff.mp h
  rw [← Option.some.inj h]

theorem stepOff_key (p : Option ℕ) (row : ℕ) :
    (if s.current = some row then { s with current := p } else s).key = s.key := by
  split_ifs <;> rfl

theorem insertBefore_key {before : ℕ} {moved : Bool}
    (h : s.insertBefore row before = some (moved, s')) : s'.key = s.key := by
  rw [insertBefore] at h
  split at h
  · obtain ⟨-, rfl⟩ := Prod.mk.inj (Option.some.inj h)
    rfl
  · obtain ⟨t, hremove, h⟩ := Option.bind_eq_some_iff.mp h
    obtain ⟨nodes, -, h⟩ := Option.bind_eq_some_iff.mp h
    obtain ⟨u, hmove, h⟩ := Option.bind_eq_some_iff.mp h
    obtain ⟨-, rfl⟩ := Prod.mk.inj (Option.some.inj h)
    exact (moveUp_key hmove).trans ((remove_key hremove).trans (stepOff_key _ _))

theorem insertAfter_key {after : ℕ} {moved : Bool}
    (h : s.insertAfter row after = some (moved, s')) : s'.key = s.key := by
  rw [insertAfter] at h
  split at h
  · obtain ⟨-, rfl⟩ := Prod.mk.inj (Option.some.inj h)
    rfl
  · obtain ⟨t, hremove, h⟩ := Option.bind_eq_some_iff.mp h
    obtain ⟨-, -, h⟩ := Option.bind_eq_some_iff.mp h
    obtain ⟨nodes, -, h⟩ := Option.bind_eq_some_iff.mp h
    obtain ⟨u, hmove, h⟩ := Option.bind_eq_some_iff.mp h
    obtain ⟨-, rfl⟩ := Prod.mk.inj (Option.some.inj h)
    exact (moveDown_key hmove).trans ((remove_key hremove).trans (stepOff_key _ _))


/-! ## Where a row goes -/

theorem backWhile_stops (h : s.WellFormed (a ++ row :: b)) (test : K → Bool) :
    ∃ a' m, a = a' ++ m ∧ (∀ x ∈ m, s.testKey test x) ∧
      (∀ x ∈ a'.getLast?, s.testKey test x = false) ∧
      s.backWhile test row = (m ++ [row]).head? := by
  have hlinked := h.linked
  have halive := h.alive
  rw [List.append_assoc, List.cons_append] at hlinked halive
  refine walk_prev (s.testKey test) hlinked halive ?_
  rw [h.rounds_eq, List.length_append]
  omega

theorem forwardWhile_stops (h : s.WellFormed (a ++ row :: b)) (test : K → Bool) :
    ∃ m b', b = m ++ b' ∧ (∀ x ∈ m, s.testKey test x) ∧
      (∀ x ∈ b'.head?, s.testKey test x = false) ∧
      s.forwardWhile test row = (row :: m).getLast? := by
  have hlinked := h.linked
  have hnodup := h.nodup
  have halive := h.alive
  rw [List.append_assoc, List.cons_append] at hlinked hnodup halive
  refine walk_next (s.testKey test) hlinked hnodup halive ?_
  rw [h.rounds_eq, List.length_append, List.length_cons]
  omega

theorem insertBefore_over (h : s.WellFormed (a ++ m ++ row :: b)) :
    ∃ change s', (m ++ [row]).head? = some change ∧
      s.insertBefore row change = some (decide (m ≠ []), s') ∧
      s'.WellFormed (a ++ row :: (m ++ b)) ∧ s'.key = s.key ∧ (m = [] → s' = s ∧ change = row) := by
  cases m with
  | nil => exact ⟨row, s, rfl, if_pos rfl, by simpa using h, rfl, fun _ => ⟨rfl, rfl⟩⟩
  | cons change m =>
    rw [List.append_assoc] at h
    obtain ⟨s', hinsert, h'⟩ := insertBefore_spec h
    exact ⟨change, s', rfl, hinsert, h', insertBefore_key hinsert, fun hnil => absurd hnil (by simp)⟩

theorem insertAfter_over (h : s.WellFormed (a ++ row :: (m ++ b))) :
    ∃ change moved s', (row :: m).getLast? = some change ∧
      s.insertAfter row change = some (moved, s') ∧ s'.WellFormed (a ++ m ++ row :: b) ∧
      s'.key = s.key := by
  cases m using List.reverseRecOn with
  | nil => exact ⟨row, false, s, rfl, if_pos rfl, by simpa using h, rfl⟩
  | append_singleton m change =>
    obtain ⟨s', hinsert, h'⟩ := insertAfter_spec h
    refine ⟨change, true, s', ?_, hinsert, by simpa using h', insertAfter_key hinsert⟩
    rw [← List.cons_append, List.getLast?_concat]

/-- A row goes back over `m`, or else forward over `m'`. -/
def movedRows (a m : List ℕ) (row : ℕ) (m' b : List ℕ) : List ℕ :=
  if m = [] then a ++ m' ++ row :: b else a ++ row :: (m ++ (m' ++ b))

theorem movedRows_perm (a m : List ℕ) (row : ℕ) (m' b : List ℕ) :
    (movedRows a m row m' b).Perm (a ++ m ++ row :: (m' ++ b)) := by
  rw [movedRows]
  split_ifs with hm
  · subst hm
    have hmiddle : (m' ++ row :: b).Perm (row :: (m' ++ b)) := List.perm_middle
    simpa using hmiddle.append_left a
  · rw [List.append_assoc]
    exact List.Perm.append_left a List.perm_middle.symm

/-- What both ways of moving a row do with the rows that they find. -/
theorem move_spec {m' b' : List ℕ} (h : s.WellFormed (a ++ m ++ row :: (m' ++ b')))
    {back : Option ℕ} (hback : back = (m ++ [row]).head?)
    (forward : ℕ → DialogsList K → Option ℕ) (hforward : forward row s = (row :: m').getLast?) :
    ∃ s', (do
        let change ← back
        let (moved, s) ← s.insertBefore row change
        if moved then some s
        else do
          let change ← forward change s
          let (_, s) ← s.insertAfter row change
          some s) = some s' ∧
      s'.WellFormed (movedRows a m row m' b') ∧ s'.key = s.key := by
  obtain ⟨change, s₁, hchange, hinsert, h₁, hkey₁, hsame⟩ := insertBefore_over h
  rw [hback, hchange, Option.bind_eq_bind, Option.bind_some, hinsert, Option.bind_eq_bind,
    Option.bind_some]
  by_cases hm : m = []
  · obtain ⟨rfl, rfl⟩ := hsame hm
    subst hm
    rw [List.nil_append] at h₁
    obtain ⟨after, moved, s₂, hafter, hinsert₂, h₂, hkey₂⟩ := insertAfter_over h₁
    refine ⟨s₂, ?_, by rwa [movedRows, if_pos rfl], hkey₂⟩
    dsimp only
    rw [if_neg (by simp), hforward, hafter, Option.bind_some, hinsert₂]
    rfl
  · refine ⟨s₁, ?_, by rwa [movedRows, if_neg hm], hkey₁⟩
    dsimp only
    rw [if_pos (by simpa using hm)]

theorem moveWhile_spec (h : s.WellFormed (a ++ row :: b)) (less more : K → Bool) :
    ∃ a' m m' b', a = a' ++ m ∧ b = m' ++ b' ∧ (∀ x ∈ m, s.testKey less x) ∧
      (∀ x ∈ a'.getLast?, s.testKey less x = false) ∧ (∀ x ∈ m', s.testKey more x) ∧
      (∀ x ∈ b'.head?, s.testKey more x = false) ∧
      ∃ s', s.moveWhile less more row = some s' ∧ s'.WellFormed (movedRows a' m row m' b') ∧
        s'.key = s.key := by
  obtain ⟨a, m, rfl, hm, ha, hback⟩ := backWhile_stops h less
  obtain ⟨m', b, rfl, hm', hb, hforward⟩ := forwardWhile_stops h more
  obtain ⟨s', hmove, h', hkey⟩ := move_spec h hback
    (fun change s => s.forwardWhile more change) hforward
  exact ⟨a, m, m', b, rfl, rfl, hm, ha, hm', hb, s', hmove, h', hkey⟩

/-! ## In order again -/

theorem movedRows_ordered {R : Type} [LinearOrder R] {rank : ℕ → R} {m' b' : List ℕ}
    (h : Ordered rank (a ++ m ++ (m' ++ b'))) (hm : ∀ x ∈ m, rank row < rank x)
    (ha : ∀ x ∈ a.getLast?, rank x ≤ rank row) (hm' : ∀ x ∈ m', rank x < rank row)
    (hb' : ∀ x ∈ b'.head?, rank row ≤ rank x) : Ordered rank (movedRows a m row m' b') := by
  rw [movedRows]
  split_ifs with hnil
  · subst hnil
    refine ordered_insert_iff.mpr ⟨by simpa using h, fun x hx => ?_, hb'⟩
    cases m' using List.reverseRecOn with
    | nil => exact ha x (by simpa using hx)
    | append_singleton m' y =>
      rw [← List.append_assoc, List.getLast?_concat] at hx
      exact (hm' x (by simp [Option.some.inj hx])).le
  · refine ordered_insert_iff.mpr ⟨by simpa using h, ha, fun x hx => ?_⟩
    obtain ⟨y, m, rfl⟩ := List.exists_cons_of_ne_nil hnil
    exact (hm x (by simp [Option.some.inj hx])).le

end DialogsList

end Bettergram.Dialogs

/-! ## Lists sorted by date

A row whose date has changed is put where it belongs, whichever of the searches
and shortcuts finds the place.
-/

namespace Bettergram.Dialogs
open Foundation Foundation.Nodes

namespace DialogsList

variable {K : Type} {s : DialogsList K} {l a b : List ℕ} {row : ℕ}

theorem linked_unique {nodes : Nodes ℕ} {p : Option ℕ} {l l' : List ℕ}
    (h : nodes.Linked p l none) (h' : nodes.Linked p l' none) (hhead : l.head? = l'.head?) :
    l = l' := by
  induction l generalizing p l' with
  | nil => cases l' with
    | nil => rfl
    | cons y l' => exact absurd hhead (by simp)
  | cons x l ih => cases l' with
    | nil => exact absurd hhead (by simp)
    | cons y l' =>
      obtain rfl := Option.some.inj hhead
      obtain ⟨-, hnext, h⟩ := h
      obtain ⟨-, hnext', h'⟩ := h'
      rw [Option.or_none] at hnext hnext'
      rw [ih h h' (hnext.symm.trans hnext')]

theorem WellFormed.unique {l' : List ℕ} (h : s.WellFormed l) (h' : s.WellFormed l') : l = l' :=
  List.append_cancel_right
    (linked_unique h.linked h'.linked (h.begin_eq.symm.trans h'.begin_eq))

/-! ## Dates -/

def NonIncreasing (sortKey : K → ℕ) (l : List ℕ) (s : DialogsList K) : Prop :=
  l.Pairwise fun x y => s.sortKeyOf sortKey y ≤ s.sortKeyOf sortKey x

/-- What comes first in a list sorted by date. -/
def dateRank (sortKey : K → ℕ) (s : DialogsList K) (x : ℕ) : ℕᵒᵈ :=
  OrderDual.toDual (s.sortKeyOf sortKey x)

theorem nonIncreasing_iff {sortKey : K → ℕ} :
    s.NonIncreasing sortKey l ↔ Ordered (s.dateRank sortKey) l := Iff.rfl

theorem WellFormed.testKey_sortKey (h : s.WellFormed l) (sortKey : K → ℕ) (test : ℕ → Bool)
    {x : ℕ} (hx : x ∈ l) :
    s.testKey (fun key => test (sortKey key)) x = test (s.sortKeyOf sortKey x) := by
  obtain ⟨key, hkey⟩ := h.keyed x hx
  simp [testKey, sortKeyOf, hkey]

theorem changeBefore_stops (h : s.WellFormed (a ++ row :: b)) (sortKey : K → ℕ)
    (hordered : Ordered (s.dateRank sortKey) (a ++ b)) {first : ℕ} (hfirst : s.begin = some first) :
    ∃ a' m, a = a' ++ m ∧ (∀ x ∈ m, s.dateRank sortKey row < s.dateRank sortKey x) ∧
      (∀ x ∈ a'.getLast?, s.dateRank sortKey x ≤ s.dateRank sortKey row) ∧
      s.changeBefore sortKey row first = (m ++ [row]).head? := by
  rw [changeBefore]
  split_ifs with hless
  · rw [h.begin_eq] at hfirst
    cases a with
    | nil => exact absurd (Option.some.inj hfirst) hless.1
    | cons y a =>
      obtain rfl := Option.some.inj hfirst
      refine ⟨[], y :: a, rfl, fun x hx => ?_, by simp, rfl⟩
      have hy : s.dateRank sortKey row < s.dateRank sortKey y := hless.2
      rcases List.mem_cons.mp hx with rfl | hx
      · exact hy
      · exact hy.trans_le ((List.pairwise_cons.mp hordered).1 x (List.mem_append_left b hx))
  · obtain ⟨a', m, rfl, hm, ha', hback⟩ :=
      backWhile_stops h fun key => sortKey key < s.sortKeyOf sortKey row
    have htest : ∀ x ∈ a' ++ m, s.testKey (fun key => sortKey key < s.sortKeyOf sortKey row) x =
        decide (s.sortKeyOf sortKey x < s.sortKeyOf sortKey row) := fun x hx =>
      h.testKey_sortKey sortKey (fun k => k < s.sortKeyOf sortKey row) (List.mem_append_left _ hx)
    refine ⟨a', m, rfl, fun x hx => ?_, fun x hx => ?_, hback⟩
    · have hmore := hm x hx
      rw [htest x (List.mem_append_right a' hx), decide_eq_true_eq] at hmore
      exact hmore
    · have hless := ha' x hx
      rw [htest x (List.mem_append_left m (List.mem_of_getLast? hx)), decide_eq_false_iff_not,
        not_lt] at hless
      exact hless

theorem changeAfter_stops (h : s.WellFormed (a ++ row :: b)) (sortKey : K → ℕ)
    (hordered : Ordered (s.dateRank sortKey) (a ++ b)) :
    ∃ m b', b = m ++ b' ∧ (∀ x ∈ m, s.dateRank sortKey x < s.dateRank sortKey row) ∧
      (∀ x ∈ b'.head?, s.dateRank sortKey row ≤ s.dateRank sortKey x) ∧
      s.changeAfter sortKey row = (row :: m).getLast? := by
  have hwalk : ∃ m b', b = m ++ b' ∧ (∀ x ∈ m, s.dateRank sortKey x < s.dateRank sortKey row) ∧
      (∀ x ∈ b'.head?, s.dateRank sortKey row ≤ s.dateRank sortKey x) ∧
      s.forwardWhile (fun key => s.sortKeyOf sortKey row < sortKey key) row =
        (row :: m).getLast? := by
    obtain ⟨m, b', rfl, hm, hb', hforward⟩ :=
      forwardWhile_stops h fun key => s.sortKeyOf sortKey row < sortKey key
    have htest : ∀ x ∈ m ++ b', s.testKey (fun key => s.sortKeyOf sortKey row < sortKey key) x =
        decide (s.sortKeyOf sortKey row < s.sortKeyOf sortKey x) := fun x hx =>
      h.testKey_sortKey sortKey (fun k => s.sortKeyOf sortKey row < k)
        (List.mem_append_right _ (List.mem_cons_of_mem row hx))
    refine ⟨m, b', rfl, fun x hx => ?_, fun x hx => ?_, hforward⟩
    · have hmore := hm x hx
      rw [htest x (List.mem_append_left b' hx), decide_eq_true_eq] at hmore
      exact hmore
    · have hless := hb' x hx
      rw [htest x (List.mem_append_right m (List.mem_of_head? hx)), decide_eq_false_iff_not,
        not_lt] at hless
      exact hless
  rw [changeAfter]
  split_ifs with hend
  · exact hwalk
  · obtain ⟨m, back, rfl⟩ : ∃ m back, b = m ++ [back] := by
      rcases List.eq_nil_or_concat b with rfl | ⟨m, back, rfl⟩
      · have hlinked := h.linked
        rw [List.append_assoc] at hlinked
        exact absurd (hlinked.at).2 hend
      · exact ⟨m, back, List.concat_eq_append ..⟩
    have hprev : s.nodes.prev last = some back := by
      rw [(h.linked.at).1, ← List.cons_append, ← List.append_assoc, List.getLast?_concat]
    rw [hprev, follow_some (h.alive back (by simp)), Option.bind_eq_bind, Option.bind_some]
    split_ifs with hmore
    · have hback : s.dateRank sortKey back < s.dateRank sortKey row := hmore
      refine ⟨m ++ [back], [], by simp, fun x hx => ?_, by simp, ?_⟩
      · rcases List.mem_append.mp hx with hx | hx
        · rw [← List.append_assoc] at hordered
          exact ((List.pairwise_append.mp hordered).2.2 x (List.mem_append_right a hx) back
            (by simp)).trans_lt hback
        · rw [List.mem_singleton.mp hx]
          exact hback
      · rw [← List.cons_append, List.getLast?_concat]
    · exact hwalk

/-- A row whose date has changed is put in its place. -/
theorem adjustByPos_sorted (h : s.WellFormed l) (hmode : s.sortMode = .Date) (sortKey : K → ℕ)
    (hrow : row ∈ l) (hsorted : s.NonIncreasing sortKey (l.erase row)) :
    ∃ s' l', s.adjustByPos sortKey row = some s' ∧ s'.WellFormed l' ∧ l'.Perm l ∧
      s'.key = s.key ∧ s'.NonIncreasing sortKey l' := by
  obtain ⟨a, b, rfl⟩ := List.append_of_mem hrow
  have hnot : row ∉ a := fun hmem => (List.nodup_append.mp (List.nodup_append.mp h.nodup).1).2.2
    row hmem row (by simp) rfl
  rw [List.erase_append_right _ hnot, List.erase_cons_head, nonIncreasing_iff] at hsorted
  obtain ⟨first, hfirst⟩ : ∃ first, s.begin = some first := by
    rw [h.begin_eq]
    cases a <;> exact ⟨_, rfl⟩
  have hfollow : s.nodes.follow (some first) = some first :=
    follow_some (h.alive first (List.mem_of_head? (h.begin_eq.symm.trans hfirst)))
  obtain ⟨a, m, rfl, hm, ha, hback⟩ := changeBefore_stops h sortKey hsorted hfirst
  obtain ⟨m', b, rfl, hm', hb, hforward⟩ := changeAfter_stops h sortKey hsorted
  obtain ⟨s', hmove, h', hkey⟩ := move_spec h hback
    (fun change s => s.changeAfter sortKey change) hforward
  refine ⟨s', _, ?_, h', movedRows_perm a m row m' b, hkey, ?_⟩
  · rw [adjustByPos, if_neg (by simp [hmode, hfirst]), hfirst, hfollow, Option.bind_eq_bind,
      Option.bind_some]
    exact hmove
  · have hrank : s'.dateRank sortKey = s.dateRank sortKey := by
      funext x
      rw [dateRank, dateRank, sortKeyOf, sortKeyOf, hkey]
    rw [nonIncreasing_iff, hrank]
    exact movedRows_ordered hsorted hm ha hm' hb

/-- A list after two rows were added. -/
theorem two_wellFormed {mode : SortMode} {event event' : Event ℕ} {s s' : DialogsList ℕ}
    (hstep : (new mode).step event = some s) (hallowed : (new mode).Allowed event)
    (hfits : (new mode).Fits event) (hstep' : s.step event' = some s') (hallowed' : s.Allowed event')
    (hfits' : s.Fits event') (hbegin : s'.begin = some 1)
    (hprev : [1, 2, last].map s'.nodes.prev = [none, some 1, some 2])
    (hnext : [1, 2, last].map s'.nodes.next = [some 2, some last, none]) :
    s'.WellFormed [1, 2] := by
  obtain ⟨t, l, ht, h⟩ := step_spec (new_wellFormed mode) event hallowed hfits
  obtain rfl := Option.some.inj (ht.symm.trans hstep)
  obtain ⟨t', l', ht', h'⟩ := step_spec h event' hallowed' hfits'
  obtain rfl := Option.some.inj (ht'.symm.trans hstep')
  have hlinked : t'.nodes.Linked none ([1, 2] ++ [last]) none := by
    simp only [List.map_cons, List.map_nil, List.cons.injEq] at hprev hnext
    exact ⟨hprev.1, hnext.1, hprev.2.1, hnext.2.1, hprev.2.2.1, hnext.2.2.1, trivial⟩
  have hsame := linked_unique h'.linked hlinked (h'.begin_eq.symm.trans hbegin)
  rwa [List.append_cancel_right hsame] at h'

/-- The date of the first of two rows becomes the older one. -/
theorem adjustByPos_sorted_two :
    let date : ℕ → ℕ := fun key => if key = 1 then 20 else 10
    let date' : ℕ → ℕ := fun key => if key = 1 then 5 else 10
    ∃ s s' l', (new .Date).run [.addToEnd date 1, .addToEnd date 2] = some s ∧
      s.adjustByPos date' 1 = some s' ∧ s'.WellFormed l' ∧ l'.Perm [1, 2] ∧ s'.key = s.key ∧
      s'.NonIncreasing date' l' := by
  intro date date'
  obtain ⟨s, s₁, hs₁, hallowed, hstep, hrun, hmode, hbegin, hprev, hnext⟩ :
      ∃ s s₁, (new .Date).step (.addToEnd date 1) = some s₁ ∧ s₁.Allowed (.addToEnd date 2) ∧
        s₁.step (.addToEnd date 2) = some s ∧
        (new .Date).run [.addToEnd date 1, .addToEnd date 2] = some s ∧ s.sortMode = .Date ∧
        s.begin = some 1 ∧ [1, 2, last].map s.nodes.prev = [none, some 1, some 2] ∧
        [1, 2, last].map s.nodes.next = [some 2, some last, none] :=
    ⟨_, _, rfl, rfl, rfl, rfl, rfl, rfl, rfl, rfl⟩
  have h := two_wellFormed hs₁ rfl trivial hstep hallowed trivial hbegin hprev hnext
  have hrow : 1 ∈ [1, 2] := by simp
  obtain ⟨s', l', hadjust⟩ := adjustByPos_sorted h hmode date' hrow (List.pairwise_singleton _ _)
  exact ⟨s, s', l', hrun, hadjust⟩

end DialogsList

end Bettergram.Dialogs
