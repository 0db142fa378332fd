import Bettergram.Dialogs.DialogsList

/-! # Moving a row

A row that is moved keeps the list linked, and the loop that follows gives each
row its position again.
-/

namespace Bettergram.Dialogs
open Foundation Foundation.Nodes

variable {K : Type} {s : DialogsList K} {l a b m : List ℕ} {row : ℕ}

namespace DialogsList

/-- The rows of the list, in their order. -/
structure WellFormed (s : DialogsList K) (l : List ℕ) : Prop where
  nodup : (l ++ [last]).Nodup
  linked : s.nodes.Linked none (l ++ [last]) none
  begin_eq : s.begin = (l ++ [last]).head?
  indexed : Indexed s.pos 0 (l ++ [last])
  count_eq : s.count = l.length
  current : ∃ r ∈ l ++ [last], s.current = some r
  rows : ∀ key r, s.rowByKey key = some r ↔ r ∈ l ∧ s.key r = some key
  keyed : ∀ r ∈ l, ∃ key, s.key r = some key
  alive : ∀ r ∈ l ++ [last], s.nodes.alive r
  fresh : ∀ r ∈ l ++ [last], r < s.fresh

theorem WellFormed.withCurrent (h : s.WellFormed l) {r : ℕ} (hr : r ∈ l ++ [last]) :
    { s with current := some r }.WellFormed l :=
  { h with current := ⟨r, hr, rfl⟩ }

theorem WellFormed.rounds_eq (h : s.WellFormed l) : s.rounds = l.length + 2 := by
  rw [rounds, h.count_eq]

theorem WellFormed.not_last (h : s.WellFormed l) : last ∉ l := fun hmem =>
  (List.nodup_append.mp h.nodup).2.2 last hmem last (by simp) rfl

/-- All that is known of a list stays when its rows are put in another order and numbered again. -/
theorem WellFormed.reorder (h : s.WellFormed l) {l' : List ℕ} (hperm : l'.Perm l) {nodes : Nodes ℕ}
    {begin : Option ℕ} {pos : ℕ → ℤ} (hlinked : nodes.Linked none (l' ++ [last]) none)
    (hbegin : begin = (l' ++ [last]).head?) (hindexed : Indexed pos 0 (l' ++ [last]))
    (halive : nodes.alive = s.nodes.alive) :
    { s with nodes := nodes, begin := begin, pos := pos }.WellFormed l' := by
  have hall : (l' ++ [last]).Perm (l ++ [last]) := hperm.append_right _
  obtain ⟨r, hr, hcurrent⟩ := h.current
  refine ⟨hall.nodup_iff.mpr h.nodup, hlinked, hbegin, hindexed, ?_, ⟨r, hall.mem_iff.mpr hr, hcurrent⟩,
    ?_, ?_, ?_, ?_⟩
  · rw [hperm.length_eq]
    exact h.count_eq
  · intro key r
    rw [hperm.mem_iff]
    exact h.rows key r
  · exact fun r hr => h.keyed r (hperm.mem_iff.mp hr)
  · intro r hr
    show nodes.alive r
    rw [halive]
    exact h.alive r (hall.mem_iff.mp hr)
  · exact fun r hr => h.fresh r (hall.mem_iff.mp hr)

/-! ## The loops over positions -/

theorem addPos_self (r : ℕ) (d : ℤ) : (s.addPos r d).pos r = s.pos r + d := Function.update_self ..

theorem addPos_of_ne {r x : ℕ} (h : x ≠ r) (d : ℤ) : (s.addPos r d).pos x = s.pos x :=
  Function.update_of_ne h ..

/-- One more row is passed before the others. -/
theorem shifted_cons {pos' : ℕ → ℤ} {r : ℕ} {d e f : ℤ} (hrow : row ∉ r :: m) (hr : r ∉ m)
    (h : Shifted ((s.addPos r d).addPos row e).pos pos' m d row f) :
    Shifted s.pos pos' (r :: m) d row (e + f) := by
  have hne : row ≠ r := fun he => hrow (by simp [he])
  have hat : ∀ x, x ≠ r → x ≠ row → ((s.addPos r d).addPos row e).pos x = s.pos x := fun x hx hx' => by
    rw [addPos_of_ne hx', addPos_of_ne hx]
  refine ⟨fun x hx => ?_, ?_, fun x hx hx' => ?_⟩
  · rcases List.mem_cons.mp hx with rfl | hx
    · rw [h.others x hr hne.symm, addPos_of_ne hne.symm, addPos_self]
    · rw [h.moved x hx, hat x (ne_of_mem_of_not_mem hx hr)
        (ne_of_mem_of_not_mem (List.mem_cons_of_mem r hx) hrow)]
  · rw [h.own, addPos_self, addPos_of_ne hne, add_assoc]
  · rw [h.others x (fun hm => hx (List.mem_cons_of_mem r hm)) hx',
      hat x (fun he => hx (by simp [he])) hx']

theorem moveUp_spec {p q : Option ℕ} {n : ℕ} (h : s.nodes.Linked p (n :: m) q) (hn : n ∉ m)
    (hnodup : m.Nodup) (hrow : row ∉ m) (halive : ∀ r ∈ m, s.nodes.alive r) {rounds : ℕ}
    (hrounds : m.length < rounds) :
    ∃ pos, moveUp row (n :: m).getLast? rounds n s = some { s with pos := pos } ∧
      Shifted s.pos pos m 1 row (-m.length) := by
  induction rounds generalizing s p n m with
  | zero => omega
  | succ rounds ih =>
    rw [moveUp]
    cases m with
    | nil => exact ⟨s.pos, by simp, by simpa using Shifted.nil s.pos 1 row⟩
    | cons x m =>
      obtain ⟨hx, hm⟩ := List.nodup_cons.mp hnodup
      have hne : some n ≠ (n :: x :: m).getLast? := by
        rw [List.getLast?_cons_cons]
        exact fun he => hn (List.mem_of_getLast? he.symm)
      have hnext : s.nodes.next n = some x := by simpa using h.2.1
      rw [if_neg hne, hnext, follow_some (halive x List.mem_cons_self), Option.bind_eq_bind,
        Option.bind_some, List.getLast?_cons_cons]
      obtain ⟨pos, hpos, hshifted⟩ := ih (s := (s.addPos x 1).addPos row (-1)) h.2.2 hx hm
        (fun hr => hrow (List.mem_cons_of_mem x hr)) (fun r hr => halive r (List.mem_cons_of_mem x hr))
        (Nat.lt_of_succ_lt_succ hrounds)
      refine ⟨pos, hpos, ?_⟩
      have := shifted_cons hrow hx hshifted
      rwa [List.length_cons, Nat.cast_succ, neg_add_rev]

theorem moveDown_spec {p q : Option ℕ} (h : s.nodes.Linked p (m ++ row :: b) q) (hnodup : m.Nodup)
    (hrow : row ∉ m) (halive : ∀ r ∈ m, s.nodes.alive r) {rounds : ℕ} (hrounds : m.length < rounds) :
    ∃ pos, moveDown row rounds (m ++ [row]).head? s = some { s with pos := pos } ∧
      Shifted s.pos pos m (-1) row m.length := by
  induction rounds generalizing s p m with
  | zero => omega
  | succ rounds ih =>
    rw [moveDown]
    cases m with
    | nil => exact ⟨s.pos, by simp, by simpa using Shifted.nil s.pos (-1) row⟩
    | cons x m =>
      obtain ⟨hx, hm⟩ := List.nodup_cons.mp hnodup
      have hne : some x ≠ some row := fun he => hrow (by simp [Option.some.inj he])
      have hnext : s.nodes.next x = (m ++ [row]).head? := by
        rw [h.2.1]
        cases m <;> rfl
      rw [List.cons_append, List.head?_cons, if_neg hne, follow_some (halive x List.mem_cons_self),
        Option.bind_eq_bind, Option.bind_some, hnext]
      obtain ⟨pos, hpos, hshifted⟩ := ih (s := (s.addPos x (-1)).addPos row 1) h.2.2 hm
        (fun hr => hrow (List.mem_cons_of_mem x hr)) (fun r hr => halive r (List.mem_cons_of_mem x hr))
        (Nat.lt_of_succ_lt_succ hrounds)
      refine ⟨pos, hpos, ?_⟩
      have := shifted_cons hrow hx hshifted
      rwa [List.length_cons, Nat.cast_succ, add_comm (m.length : ℤ)]

theorem lowerPos_spec {p : Option ℕ} (h : s.nodes.Linked p (m ++ [last]) none)
    (hnodup : (m ++ [last]).Nodup) (halive : ∀ r ∈ m, s.nodes.alive r) {rounds : ℕ}
    (hrounds : m.length < rounds) :
    ∃ pos, lowerPos rounds (m ++ [last]).head? s = some { s with pos := pos } ∧
      (∀ r ∈ m, pos r = s.pos r - 1) ∧ ∀ r ∉ m, pos r = s.pos r := by
  induction rounds generalizing s p m with
  | zero => omega
  | succ rounds ih =>
    rw [lowerPos]
    cases m with
    | nil => exact ⟨s.pos, by simp, by simp, fun _ _ => rfl⟩
    | cons x m =>
      rw [List.cons_append] at hnodup
      obtain ⟨hx, hm⟩ := List.nodup_cons.mp hnodup
      rw [List.mem_append, not_or] at hx
      have hne : some x ≠ some last := fun he => hx.2 (by simp [Option.some.inj he])
      have hnext : s.nodes.next x = (m ++ [last]).head? := by
        rw [h.2.1, Option.or_none]
        rfl
      rw [List.cons_append, List.head?_cons, if_neg hne, follow_some (halive x List.mem_cons_self),
        Option.bind_eq_bind, Option.bind_some, hnext]
      obtain ⟨pos, hpos, hmoved, hothers⟩ := ih (s := s.addPos x (-1)) h.2.2 hm
        (fun r hr => halive r (List.mem_cons_of_mem x hr)) (Nat.lt_of_succ_lt_succ hrounds)
      refine ⟨pos, hpos, fun r hr => ?_, fun r hr => ?_⟩
      · rcases List.mem_cons.mp hr with rfl | hr
        · rw [hothers r hx.1, addPos_self, sub_eq_add_neg]
        · rw [hmoved r hr, addPos_of_ne (ne_of_mem_of_not_mem hr hx.1)]
      · rw [hothers r fun hmem => hr (List.mem_cons_of_mem x hmem),
          addPos_of_ne fun he => hr (by simp [he])]

/-! ## Insertion -/

/-- The row is taken out, in a state that has the links of a well-formed one. -/
theorem remove_spec (h : s.WellFormed (a ++ row :: b)) {t : DialogsList K} (ht : t.nodes = s.nodes)
    (htbegin : t.begin = s.begin) : ∃ nodes,
    t.remove row = some { t with nodes := nodes, begin := (a ++ b ++ [last]).head? } ∧
      nodes.Linked none (a ++ b ++ [last]) none ∧ nodes.alive = s.nodes.alive := by
  have hsplit : a ++ row :: b ++ [last] = a ++ row :: (b ++ [last]) := by simp
  have hlinked := h.linked
  have hnodup := h.nodup
  have halive := h.alive
  have hbegin := h.begin_eq
  rw [hsplit] at hlinked hnodup halive hbegin
  obtain ⟨nodes, hunlink, hnodes, hsame, -⟩ := unlink_spec hlinked hnodup halive
  obtain ⟨hp, hn⟩ := hlinked.at
  obtain ⟨x, hx⟩ : ∃ x, (b ++ [last]).head? = some x := by cases b <;> simp
  have hxalive : s.nodes.alive x :=
    halive x (List.mem_append_right a (List.mem_cons_of_mem row (List.mem_of_head? hx)))
  rw [← List.append_assoc] at hnodes
  refine ⟨nodes, ?_, hnodes, hsame⟩
  rw [remove, ht, htbegin, hn, hx, follow_some hxalive, Option.bind_eq_bind, Option.bind_some, hunlink,
    Option.bind_eq_bind, Option.bind_some, hp]
  cases a with
  | nil => simp [hx]
  | cons y a =>
    rw [if_neg (by simp), hbegin]
    rfl

/-- The current row is stepped off, to a row of the list. -/
theorem WellFormed.stepOff (h : s.WellFormed l) {p : Option ℕ} {x : ℕ} (hp : p = some x)
    (hx : x ∈ l ++ [last]) (row : ℕ) :
    (if s.current = some row then { s with current := p } else s).WellFormed l := by
  split_ifs
  · rw [hp]
    exact h.withCurrent hx
  · exact h

theorem stepOff_nodes (p : Option ℕ) (row : ℕ) :
    (if s.current = some row then { s with current := p } else s).nodes = s.nodes := by
  split_ifs <;> rfl

theorem insertBefore_spec {before : ℕ} (h : s.WellFormed (a ++ ((before :: m) ++ row :: b))) :
    ∃ s', s.insertBefore row before = some (true, s') ∧
      s'.WellFormed (a ++ row :: ((before :: m) ++ b)) := by
  have hsplit : a ++ ((before :: m) ++ row :: b) = (a ++ before :: m) ++ row :: b := by simp
  have hprev : s.nodes.prev row = (before :: m).getLast? := by
    have hlinked := h.linked
    rw [hsplit, List.append_assoc, List.cons_append] at hlinked
    rw [(hlinked.at).1, List.getLast?_append_of_ne_nil _ (by simp)]
  obtain ⟨till, htill⟩ : ∃ till, (before :: m).getLast? = some till :=
    ⟨_, List.getLast?_eq_some_getLast (by simp)⟩
  obtain ⟨s₁, hs₁⟩ : ∃ s₁, (if s.current = some row then
      { s with current := s.nodes.prev row } else s) = s₁ := ⟨_, rfl⟩
  have h₁ : s₁.WellFormed (a ++ ((before :: m) ++ row :: b)) := by
    rw [← hs₁]
    refine h.stepOff (hprev.trans htill) ?_ row
    have hmem := List.mem_of_getLast? htill
    simp only [List.mem_append]
    tauto
  have hnodup : (a ++ row :: ((before :: m) ++ (b ++ [last]))).Nodup := by
    have hperm : (a ++ row :: ((before :: m) ++ (b ++ [last]))).Perm
        (a ++ ((before :: m) ++ row :: b) ++ [last]) := by
      rw [List.append_assoc, List.append_assoc]
      exact List.Perm.append_left a List.perm_middle.symm
    exact hperm.nodup_iff.mpr h₁.nodup
  obtain ⟨-, hmb, -, hrmb, -, -⟩ := nodup_parts hnodup
  have hrm : row ∉ before :: m := fun hmem => hrmb (List.mem_append_left _ hmem)
  have hne : row ≠ before := fun he => hrm (by simp [he])
  have h₁alive := h₁.alive
  have h₁rounds := h₁.rounds_eq
  rw [hsplit] at h₁
  obtain ⟨nodes, hremove, hlinked, halive⟩ := remove_spec h₁ rfl rfl
  have hlist : a ++ before :: m ++ b ++ [last] = a ++ before :: (m ++ (b ++ [last])) := by simp
  rw [hlist] at hlinked hremove
  obtain ⟨nodes', hlink, hlinked', halive', -⟩ := linkBefore_spec hlinked hnodup fun r hr => by
    rw [halive]
    refine h₁alive r ?_
    simp only [List.mem_append, List.mem_cons] at hr ⊢
    tauto
  have hrowLinked := (linked_append.mp hlinked').2
  have hchain : nodes'.Linked a.getLast? (row :: before :: m) (b ++ [last]).head? := by
    have hsplit' : row :: before :: (m ++ (b ++ [last])) = (row :: before :: m) ++ (b ++ [last]) := rfl
    rw [hsplit', Option.or_none] at hrowLinked
    simpa using (linked_append.mp hrowLinked).1
  obtain ⟨s₂, hs₂⟩ : ∃ s₂, s₂ = { s₁ with
    nodes := nodes', begin := (a ++ row :: before :: (m ++ (b ++ [last]))).head? } := ⟨_, rfl⟩
  have hrounds : s₂.rounds = s₁.rounds := by rw [hs₂]; rfl
  obtain ⟨pos, hmove, hshifted⟩ := moveUp_spec (s := s₂) (by rw [hs₂]; exact hchain) hrm
    (List.nodup_append.mp hmb).1 hrm
    (fun r hr => by
      rw [hs₂]
      show nodes'.alive r
      rw [halive', halive]
      refine h₁alive r ?_
      simp only [List.mem_append]
      tauto)
    (show (before :: m).length < s₂.rounds by
      rw [hrounds, h₁rounds, List.length_append, List.length_append]
      omega)
  refine ⟨{ s₂ with pos := pos }, ?_, ?_⟩
  · have hbegin : (if a.getLast? = none then some row
        else (a ++ before :: (m ++ (b ++ [last]))).head?) =
        (a ++ row :: before :: (m ++ (b ++ [last]))).head? := by
      cases a with
      | nil => rfl
      | cons y a => rw [if_neg (by simp)]; rfl
    have hprev' : nodes'.prev row = a.getLast? := by simpa using hrowLinked.1
    rw [insertBefore, if_neg hne, hs₁]
    dsimp only
    rw [hremove, Option.bind_eq_bind, Option.bind_some]
    dsimp only
    rw [hlink, Option.bind_eq_bind, Option.bind_some, hprev', hbegin, ← hs₂, ← hs₁, stepOff_nodes,
      hprev, ← List.getLast?_cons_cons (a := row), hmove]
    rfl
  · have hperm : (a ++ row :: ((before :: m) ++ b)).Perm ((a ++ before :: m) ++ row :: b) := by
      rw [List.append_assoc]
      exact List.Perm.append_left a List.perm_middle.symm
    rw [hs₂] at hshifted ⊢
    refine h₁.reorder hperm (by simpa using hlinked') (by simp) ?_ (halive'.trans halive)
    have hindexed := h₁.indexed
    have hnodup₁ := h₁.nodup
    rw [show a ++ before :: m ++ row :: b ++ [last] = a ++ ((before :: m) ++ row :: (b ++ [last])) by
      simp] at hindexed hnodup₁
    have hmoved := hindexed.moveUp hnodup₁ hshifted
    simpa using hmoved

theorem insertAfter_spec {after : ℕ} (h : s.WellFormed (a ++ row :: ((m ++ [after]) ++ b))) :
    ∃ s', s.insertAfter row after = some (true, s') ∧
      s'.WellFormed (a ++ ((m ++ [after]) ++ row :: b)) := by
  obtain ⟨x, hx⟩ : ∃ x, (m ++ [after]).head? = some x := by cases m <;> simp
  have hhead : ∀ l : List ℕ, (m ++ [after] ++ l).head? = some x := fun l => by
    rw [List.head?_append, hx]
    rfl
  have hnext : s.nodes.next row = some x := by
    have hlinked := h.linked
    rw [List.append_assoc, List.cons_append, List.append_assoc] at hlinked
    rw [(hlinked.at).2, hhead]
  obtain ⟨s₁, hs₁⟩ : ∃ s₁, (if s.current = some row then
      { s with current := s.nodes.next row } else s) = s₁ := ⟨_, rfl⟩
  have hnext₁ : s₁.nodes.next row = some x := by rw [← hs₁, stepOff_nodes, hnext]
  have h₁ : s₁.WellFormed (a ++ row :: ((m ++ [after]) ++ b)) := by
    rw [← hs₁]
    refine h.stepOff hnext ?_ row
    have hmem := List.mem_of_head? hx
    simp only [List.mem_append, List.mem_cons] at hmem ⊢
    tauto
  have hnodup₁ := h₁.nodup
  rw [show a ++ row :: (m ++ [after] ++ b) ++ [last] = a ++ row :: ((m ++ [after]) ++ (b ++ [last])) by
    simp] at hnodup₁
  obtain ⟨-, hmb, -, hrmb, -, -⟩ := nodup_parts hnodup₁
  have hrm : row ∉ m ++ [after] := fun hmem => hrmb (List.mem_append_left _ hmem)
  have hne : row ≠ after := fun he => hrm (by simp [he])
  obtain ⟨nodes, hremove, hlinked, halive⟩ := remove_spec h₁ rfl rfl
  have hlist : a ++ (m ++ [after] ++ b) ++ [last] = (a ++ m) ++ after :: (b ++ [last]) := by simp
  have hbegin : (a ++ (m ++ [after] ++ b) ++ [last]).head? =
      (a ++ (m ++ [after] ++ row :: b) ++ [last]).head? := by
    have hsame : ∀ l, (a ++ (m ++ [after] ++ l) ++ [last]).head? = a.head?.or (some x) := fun l => by
      rw [List.head?_append, List.head?_append, hhead]
      cases a <;> rfl
    rw [hsame, hsame]
  rw [hbegin] at hremove
  rw [hlist] at hlinked
  have hnodup : ((a ++ m) ++ after :: row :: (b ++ [last])).Nodup := by
    have hperm : ((a ++ m) ++ after :: row :: (b ++ [last])).Perm
        (a ++ row :: ((m ++ [after]) ++ (b ++ [last]))) := by
      rw [show (a ++ m) ++ after :: row :: (b ++ [last]) =
        a ++ ((m ++ [after]) ++ row :: (b ++ [last])) by simp]
      exact List.Perm.append_left a List.perm_middle
    exact hperm.nodup_iff.mpr hnodup₁
  obtain ⟨y, hy⟩ : ∃ y, (b ++ [last]).head? = some y := by cases b <;> simp
  have halive₁ : ∀ r ∈ (a ++ m) ++ after :: (b ++ [last]), s₁.nodes.alive r := by
    intro r hr
    refine h₁.alive r ?_
    simp only [List.mem_append, List.mem_cons] at hr ⊢
    tauto
  obtain ⟨nodes', hlink, hlinked', halive', -⟩ := linkAfter_spec hlinked hnodup fun r hr => by
    rw [halive]
    exact halive₁ r hr
  rw [show (a ++ m) ++ after :: row :: (b ++ [last]) = a ++ ((m ++ [after]) ++ row :: (b ++ [last])) by
    simp] at hlinked'
  obtain ⟨s₂, hs₂⟩ : ∃ s₂, s₂ = { s₁ with
    nodes := nodes', begin := (a ++ (m ++ [after] ++ row :: b) ++ [last]).head? } := ⟨_, rfl⟩
  obtain ⟨pos, hmove, hshifted⟩ := moveDown_spec (s := s₂)
    (by rw [hs₂]; exact (linked_append.mp hlinked').2) (List.nodup_append.mp hmb).1 hrm
    (fun r hr => by
      rw [hs₂]
      show nodes'.alive r
      rw [halive', halive]
      refine halive₁ r ?_
      simp only [List.mem_append, List.mem_cons] at hr ⊢
      tauto)
    (show (m ++ [after]).length < s₁.rounds by
      rw [h₁.rounds_eq]
      simp only [List.length_append, List.length_cons]
      omega)
  refine ⟨{ s₂ with pos := pos }, ?_, ?_⟩
  · have hfollow : nodes.follow (nodes.next after) = some y := by
      rw [(hlinked.at).2, hy]
      refine follow_some ?_
      rw [halive]
      exact halive₁ y (List.mem_append_right _ (List.mem_cons_of_mem _ (List.mem_of_head? hy)))
    rw [insertAfter, if_neg hne, hs₁]
    dsimp only
    rw [hremove, Option.bind_eq_bind, Option.bind_some]
    dsimp only
    rw [hfollow, Option.bind_eq_bind, Option.bind_some, hlink, Option.bind_eq_bind, Option.bind_some,
      ← hs₂, hnext₁, ← hhead [row]]
    show (moveDown row s₁.rounds _ s₂).bind _ = _
    rw [hmove]
    rfl
  · have hperm : (a ++ ((m ++ [after]) ++ row :: b)).Perm (a ++ row :: ((m ++ [after]) ++ b)) :=
      List.Perm.append_left a List.perm_middle
    rw [hs₂] at hshifted ⊢
    refine h₁.reorder hperm (by simpa using hlinked') rfl ?_ (halive'.trans halive)
    have hindexed := h₁.indexed
    rw [show a ++ row :: (m ++ [after] ++ b) ++ [last] =
      a ++ row :: ((m ++ [after]) ++ (b ++ [last])) by simp] at hindexed
    have hmoved := hindexed.moveDown hnodup₁ hshifted
    simpa using hmoved

end DialogsList

end Bettergram.Dialogs
