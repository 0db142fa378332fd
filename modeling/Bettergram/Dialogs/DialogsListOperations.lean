import Bettergram.Dialogs.DialogsListMoves

/-! # The operations on the list

Each operation returns and keeps the list well formed.
-/

namespace Bettergram.Dialogs
open Foundation Foundation.Nodes

variable {K : Type} {s : DialogsList K} {l a b m : List ℕ} {row : ℕ}

namespace DialogsList

theorem new_wellFormed (sortMode : SortMode) : (new sortMode : DialogsList K).WellFormed [] where
  nodup := List.nodup_singleton last
  linked := ⟨rfl, rfl, trivial⟩
  begin_eq := rfl
  indexed := ⟨rfl, trivial⟩
  count_eq := rfl
  current := ⟨last, by simp, rfl⟩
  rows := by simp [new]
  keyed := by simp
  alive := by simp [new]
  fresh := by simp [new]

/-! ## Moves -/

theorem insertBefore_moves (h : s.WellFormed (a ++ row :: b)) {change : ℕ}
    (hchange : change = row ∨ ∃ a' m, a = a' ++ change :: m) :
    ∃ moved s' l', s.insertBefore row change = some (moved, s') ∧ s'.WellFormed l' ∧
      l'.Perm (a ++ row :: b) ∧ (moved = false → s' = s ∧ change = row) := by
  obtain rfl | ⟨a', m, rfl⟩ := hchange
  · exact ⟨false, s, _, if_pos rfl, h, List.Perm.refl _, fun _ => ⟨rfl, rfl⟩⟩
  · rw [List.append_assoc] at h ⊢
    obtain ⟨s', hinsert, h'⟩ := insertBefore_spec h
    refine ⟨true, s', _, hinsert, h', ?_, nofun⟩
    exact List.Perm.append_left a' List.perm_middle.symm

theorem insertAfter_moves (h : s.WellFormed (a ++ row :: b)) {change : ℕ}
    (hchange : change = row ∨ ∃ m b', b = m ++ [change] ++ b') :
    ∃ moved s' l', s.insertAfter row change = some (moved, s') ∧ s'.WellFormed l' ∧
      l'.Perm (a ++ row :: b) := by
  obtain rfl | ⟨m, b', rfl⟩ := hchange
  · exact ⟨false, s, _, if_pos rfl, h, List.Perm.refl _⟩
  · obtain ⟨s', hinsert, h'⟩ := insertAfter_spec h
    exact ⟨true, s', _, hinsert, h', List.Perm.append_left a List.perm_middle⟩

theorem backWhile_spec (h : s.WellFormed (a ++ row :: b)) (test : K → Bool) :
    ∃ change, s.backWhile test row = some change ∧
      (change = row ∨ ∃ a' m, a = a' ++ change :: m) := by
  have hlinked := h.linked
  have halive := h.alive
  rw [List.append_assoc, List.cons_append] at hlinked halive
  obtain ⟨a', m, rfl, -, -, hwalk⟩ := walk_prev (s.testKey test) hlinked halive
    (show a.length < s.rounds by
      rw [h.rounds_eq, List.length_append]
      omega)
  cases m with
  | nil => exact ⟨row, hwalk, .inl rfl⟩
  | cons change m => exact ⟨change, hwalk, .inr ⟨a', m, rfl⟩⟩

theorem forwardWhile_spec (h : s.WellFormed (a ++ row :: b)) (test : K → Bool) :
    ∃ change, s.forwardWhile test row = some change ∧
      (change = row ∨ ∃ m b', b = m ++ [change] ++ b') := by
  have hlinked := h.linked
  have hnodup := h.nodup
  have halive := h.alive
  rw [List.append_assoc, List.cons_append] at hlinked hnodup halive
  obtain ⟨m, b', rfl, -, -, hwalk⟩ := walk_next (s.testKey test) hlinked hnodup halive
    (show b.length < s.rounds by
      rw [h.rounds_eq, List.length_append, List.length_cons]
      omega)
  cases m using List.reverseRecOn with
  | nil => exact ⟨row, hwalk, .inl rfl⟩
  | append_singleton m change =>
    refine ⟨change, ?_, .inr ⟨m, b', rfl⟩⟩
    rw [← List.cons_append, List.getLast?_concat] at hwalk
    exact hwalk

theorem moveWhile_moves (h : s.WellFormed (a ++ row :: b)) (less more : K → Bool) :
    ∃ s' l', s.moveWhile less more row = some s' ∧ s'.WellFormed l' ∧ l'.Perm (a ++ row :: b) := by
  obtain ⟨change, hback, hchange⟩ := backWhile_spec h less
  obtain ⟨moved, s₁, l₁, hinsert, h₁, hperm₁, hsame⟩ := insertBefore_moves h hchange
  rw [moveWhile, hback, Option.bind_eq_bind, Option.bind_some, hinsert, Option.bind_eq_bind,
    Option.bind_some]
  cases moved with
  | true => exact ⟨s₁, l₁, rfl, h₁, hperm₁⟩
  | false =>
    obtain ⟨rfl, rfl⟩ := hsame rfl
    obtain ⟨change, hforward, hchange⟩ := forwardWhile_spec h more
    obtain ⟨moved, s₂, l₂, hinsert, h₂, hperm₂⟩ := insertAfter_moves h hchange
    refine ⟨s₂, l₂, ?_, h₂, hperm₂⟩
    dsimp only
    rw [if_neg Bool.false_ne_true, hforward, Option.bind_some, hinsert]
    rfl

theorem changeBefore_spec (h : s.WellFormed (a ++ row :: b)) (sortKey : K → ℕ) {first : ℕ}
    (hfirst : s.begin = some first) : ∃ change, s.changeBefore sortKey row first = some change ∧
      (change = row ∨ ∃ a' m, a = a' ++ change :: m) := by
  rw [changeBefore]
  split_ifs with hless
  · rw [h.begin_eq] at hfirst
    cases a with
    | nil => exact absurd (Option.some.inj hfirst) hless.1
    | cons x a =>
      obtain rfl := Option.some.inj hfirst
      exact ⟨x, rfl, .inr ⟨[], a, rfl⟩⟩
  · exact backWhile_spec h _

theorem changeAfter_spec (h : s.WellFormed (a ++ row :: b)) (sortKey : K → ℕ) :
    ∃ change, s.changeAfter sortKey row = some change ∧
      (change = row ∨ ∃ m b', b = m ++ [change] ++ b') := by
  rw [changeAfter]
  split_ifs with hend
  · exact forwardWhile_spec h _
  · obtain ⟨m, back, rfl⟩ : ∃ m back, b = m ++ [back] := by
      rcases List.eq_nil_or_concat b with rfl | ⟨m, back, rfl⟩
      · have hlinked := h.linked
        rw [List.append_assoc] at hlinked
        exact absurd (hlinked.at).2 hend
      · exact ⟨m, back, List.concat_eq_append ..⟩
    have hprev : s.nodes.prev last = some back := by
      rw [(h.linked.at).1, ← List.cons_append, ← List.append_assoc, List.getLast?_concat]
    rw [hprev, follow_some (h.alive back (by simp)), Option.bind_eq_bind, Option.bind_some]
    split_ifs
    · exact ⟨back, rfl, .inr ⟨m, [], by simp⟩⟩
    · exact forwardWhile_spec h _

theorem adjustByPos_moves (h : s.WellFormed (a ++ row :: b)) (sortKey : K → ℕ) :
    ∃ s' l', s.adjustByPos sortKey row = some s' ∧ s'.WellFormed l' ∧ l'.Perm (a ++ row :: b) := by
  rw [adjustByPos]
  split_ifs with hmode
  · exact ⟨s, _, rfl, h, List.Perm.refl _⟩
  obtain ⟨first, hfirst⟩ := Option.ne_none_iff_exists'.mp fun hnone => hmode (.inr hnone)
  have hfollow : s.nodes.follow (some first) = some first :=
    follow_some (h.alive first (List.mem_of_head? (h.begin_eq.symm.trans hfirst)))
  obtain ⟨change, hback, hchange⟩ := changeBefore_spec h sortKey hfirst
  obtain ⟨moved, s₁, l₁, hinsert, h₁, hperm₁, hsame⟩ := insertBefore_moves h hchange
  rw [hfirst, hfollow, Option.bind_eq_bind, Option.bind_some, hback, Option.bind_some, hinsert,
    Option.bind_eq_bind, Option.bind_some]
  cases moved with
  | true => exact ⟨s₁, l₁, rfl, h₁, hperm₁⟩
  | false =>
    obtain ⟨rfl, rfl⟩ := hsame rfl
    obtain ⟨after, hafter, hchange⟩ := changeAfter_spec h sortKey
    obtain ⟨moved, s₂, l₂, hinsert, h₂, hperm₂⟩ := insertAfter_moves h hchange
    refine ⟨s₂, l₂, ?_, h₂, hperm₂⟩
    dsimp only
    rw [if_neg Bool.false_ne_true, hafter, Option.bind_some, hinsert]
    rfl

/-! ## Rows that come and go -/

theorem linkLast_spec (row : ℕ) (hbegin : s.begin = (l ++ [last]).head?) (hprev : s.nodes.prev last = l.getLast?)
    (hlast : last ∉ l) (halive : ∀ r ∈ l, s.nodes.alive r) :
    ∃ nodes begin current, s.linkLast row =
        some { s with nodes := nodes, begin := begin, current := current } ∧
      s.nodes.setNextOf l.getLast? (some row) = some nodes ∧
      begin = (l ++ [row] ++ [last]).head? ∧ (current = some row ∨ current = s.current) := by
  rw [linkLast, hbegin, hprev]
  cases l using List.reverseRecOn with
  | nil => exact ⟨s.nodes, some row, some row, rfl, rfl, rfl, .inl rfl⟩
  | append_singleton a x =>
    have hne : (a ++ [x] ++ [last]).head? ≠ some last := by
      intro heq
      refine hlast ?_
      cases a with
      | nil => simpa using heq.symm
      | cons y a => simp [Option.some.inj heq]
    have hhead : (a ++ [x] ++ [last]).head? = (a ++ [x] ++ [row] ++ [last]).head? := by
      cases a <;> rfl
    have hx : s.nodes.follow (some x) = some x := follow_some (halive x (by simp))
    refine ⟨s.nodes.setNext x (some row), _, s.current, ?_, ?_, hhead, .inr rfl⟩
    · rw [if_neg hne, List.getLast?_concat, hx]
      rfl
    · rw [List.getLast?_concat, setNextOf, hx]
      rfl

/-- The links after a row was put behind the others. -/
theorem append_links (h : s.WellFormed l) (hrow : row ∉ l ++ [last]) :
    ∃ nodes, (({ s.nodes with alive := Function.update s.nodes.alive row true }).linkBefore row last) =
        some nodes ∧ nodes.Linked none (l ++ [row] ++ [last]) none ∧
      nodes.alive = Function.update s.nodes.alive row true := by
  have hperm : (l ++ row :: last :: []).Perm (row :: (l ++ [last])) := List.perm_middle
  have hnodup := hperm.nodup_iff.mpr (List.nodup_cons.mpr ⟨hrow, h.nodup⟩)
  have hlinked : ({ s.nodes with alive := Function.update s.nodes.alive row true }).Linked none
      (l ++ [last]) none := h.linked.congr (fun _ _ => rfl) fun _ _ => rfl
  obtain ⟨nodes, hlink, hnodes, halive, -⟩ := linkBefore_spec hlinked hnodup fun r hr => by
    show Function.update s.nodes.alive row true r
    rw [Function.update_of_ne (ne_of_mem_of_not_mem hr hrow)]
    exact h.alive r hr
  exact ⟨nodes, hlink, by simpa using hnodes, halive⟩

end DialogsList

section Keys

variable [DecidableEq K]

namespace DialogsList

theorem append_rows {rowByKey : K → Option ℕ} {keyOf : ℕ → Option K}
    (h : ∀ key r, rowByKey key = some r ↔ r ∈ l ∧ keyOf r = some key) {key : K}
    (hkey : rowByKey key = none) (hrow : row ∉ l) (other : K) (r : ℕ) :
    Function.update rowByKey key (some row) other = some r ↔
      r ∈ l ++ [row] ∧ Function.update keyOf row (some key) r = some other := by
  have hold : ∀ r ∈ l, Function.update keyOf row (some key) r = keyOf r := fun r hr =>
    Function.update_of_ne (ne_of_mem_of_not_mem hr hrow) _ _
  rw [List.mem_append, List.mem_singleton]
  by_cases hother : other = key
  · subst hother
    rw [Function.update_self]
    constructor
    · rintro ⟨⟩
      exact ⟨.inr rfl, Function.update_self ..⟩
    · rintro ⟨hr | rfl, hrkey⟩
      · rw [hold r hr] at hrkey
        rw [(h other r).mpr ⟨hr, hrkey⟩] at hkey
        cases hkey
      · rfl
  · rw [Function.update_of_ne hother, h]
    constructor
    · rintro ⟨hr, hrkey⟩
      exact ⟨.inl hr, (hold r hr).trans hrkey⟩
    · rintro ⟨hr | rfl, hrkey⟩
      · exact ⟨hr, (hold r hr).symm.trans hrkey⟩
      · rw [Function.update_self] at hrkey
        exact absurd (Option.some.inj hrkey).symm hother

/-- The list with a row put behind the others. -/
theorem WellFormed.append (h : s.WellFormed l) {key : K} (hkey : s.rowByKey key = none)
    {nodes : Nodes ℕ} (hlinked : nodes.Linked none (l ++ [s.fresh] ++ [last]) none)
    (halive : nodes.alive = Function.update s.nodes.alive s.fresh true) {begin current : Option ℕ}
    (hbegin : begin = (l ++ [s.fresh] ++ [last]).head?)
    (hcurrent : ∃ r ∈ l ++ [s.fresh] ++ [last], current = some r) :
    WellFormed { s with
      nodes := nodes
      key := Function.update s.key s.fresh (some key)
      pos := Function.update (Function.update s.pos s.fresh (s.pos last)) last (s.pos last + 1)
      begin := begin
      count := s.count + 1
      rowByKey := Function.update s.rowByKey key (some s.fresh)
      current := current
      fresh := s.fresh + 1 } (l ++ [s.fresh]) := by
  have hnew : s.fresh ∉ l ++ [last] := fun hmem => (h.fresh _ hmem).false
  have hne : ∀ r ∈ l ++ [last], r ≠ s.fresh := fun r hr => ne_of_mem_of_not_mem hr hnew
  have hperm : (l ++ [s.fresh] ++ [last]).Perm (s.fresh :: (l ++ [last])) := by
    rw [List.append_assoc]
    exact List.perm_middle
  have hmem : ∀ r, r ∈ l ++ [s.fresh] ++ [last] ↔ r = s.fresh ∨ r ∈ l ++ [last] := fun r => by
    rw [hperm.mem_iff, List.mem_cons]
  refine ⟨hperm.nodup_iff.mpr (List.nodup_cons.mpr ⟨hnew, h.nodup⟩), hlinked, hbegin, ?_, ?_, hcurrent,
    fun other r => ?_, fun r hr => ?_, fun r hr => ?_, fun r hr => ?_⟩
  · obtain ⟨hl, hlast, -⟩ := indexed_append.mp h.indexed
    rw [List.append_assoc]
    refine indexed_append.mpr ⟨hl.congr fun r hr => ?_, ?_, ?_, trivial⟩
    · dsimp only
      rw [Function.update_of_ne (ne_of_mem_of_not_mem hr h.not_last),
        Function.update_of_ne (hne r (List.mem_append_left _ hr))]
    · dsimp only
      rw [Function.update_of_ne (hne last (by simp)).symm, Function.update_self, hlast]
    · dsimp only
      rw [Function.update_self, hlast]
  · rw [List.length_append, h.count_eq, List.length_singleton]
  · exact append_rows h.rows hkey (fun hmem => hnew (List.mem_append_left _ hmem)) other r
  · rcases List.mem_append.mp hr with hr | hr
    · obtain ⟨other, hother⟩ := h.keyed r hr
      exact ⟨other, (Function.update_of_ne (hne r (List.mem_append_left _ hr)) _ _).trans hother⟩
    · rw [List.mem_singleton.mp hr]
      exact ⟨key, Function.update_self ..⟩
  · show nodes.alive r
    rw [halive]
    rcases (hmem r).mp hr with rfl | hr
    · rw [Function.update_self]
    · rw [Function.update_of_ne (hne r hr)]
      exact h.alive r hr
  · rcases (hmem r).mp hr with rfl | hr
    · exact Nat.lt_succ_self _
    · exact (h.fresh r hr).trans (Nat.lt_succ_self _)

/-- A new row is put behind the others, and moved from there when the list is sorted by date. -/
theorem addToEnd_eq (h : s.WellFormed l) {key : K} (hkey : s.rowByKey key = none)
    (sortKey : K → ℕ) : ∃ s₂ : DialogsList K, s₂.WellFormed (l ++ [s.fresh]) ∧
      s₂.key = Function.update s.key s.fresh (some key) ∧ s₂.sortMode = s.sortMode ∧
      s.addToEnd sortKey key = (do
        let s' ← if s₂.sortMode = .Date then s₂.adjustByPos sortKey s.fresh else some s₂
        some (s.fresh, s')) := by
  have hnew : s.fresh ∉ l ++ [last] := fun hmem => (h.fresh _ hmem).false
  have hne : last ≠ s.fresh := ne_of_mem_of_not_mem (by simp) hnew
  have hlast : s.nodes.prev last = l.getLast? := (h.linked.at).1
  obtain ⟨made, hmade⟩ : ∃ made : Nodes ℕ, made = (({ s.nodes with
      alive := Function.update s.nodes.alive s.fresh true }).setPrev s.fresh
      (s.nodes.prev last)).setNext s.fresh (some last) := ⟨_, rfl⟩
  obtain ⟨s₁, hs₁⟩ : ∃ s₁ : DialogsList K, s₁ = addPos last 1 { s with
      nodes := made
      key := Function.update s.key s.fresh (some key)
      pos := Function.update s.pos s.fresh (s.pos last)
      fresh := s.fresh + 1 } := ⟨_, rfl⟩
  have hnodes₁ : s₁.nodes = made := by rw [hs₁]; rfl
  have hprev : made.prev last = l.getLast? := by
    rw [hmade, ← hlast]
    exact Function.update_of_ne hne _ _
  obtain ⟨nodes, begin, current, hlink, hnodes, hbegin, hcurrent⟩ := linkLast_spec (s := s₁)
    (l := l) s.fresh (by rw [hs₁]; exact h.begin_eq) (by rw [hnodes₁]; exact hprev) h.not_last
    (fun r hr => by
      rw [hnodes₁, hmade]
      show Function.update s.nodes.alive s.fresh true r
      rw [Function.update_of_ne (ne_of_mem_of_not_mem (List.mem_append_left _ hr) hnew)]
      exact h.alive r (List.mem_append_left _ hr))
  obtain ⟨nodes', hlink', hlinked, halive⟩ := append_links h hnew
  have hsame : nodes' = nodes.setPrev last (some s.fresh) := by
    have hown : (((({ s.nodes with alive := Function.update s.nodes.alive s.fresh true } :
        Nodes ℕ).setPrev s.fresh (s.nodes.prev last)).setNext s.fresh (some last))).prev s.fresh =
        l.getLast? := (Function.update_self ..).trans hlast
    rw [linkBefore] at hlink'
    dsimp only at hlink'
    rw [hown, ← hmade, setNextOf_setPrev (hnodes₁ ▸ hnodes)] at hlink'
    exact (Option.some.inj hlink').symm
  rw [hsame] at hlinked halive
  have hcurrent' : ∃ r ∈ l ++ [s.fresh] ++ [last], current = some r := by
    obtain ⟨r, hr, hwas⟩ := h.current
    rcases hcurrent with hcurrent | hcurrent
    · exact ⟨s.fresh, by simp, hcurrent⟩
    · refine ⟨r, ?_, by rw [hcurrent, hs₁]; exact hwas⟩
      simp only [List.mem_append] at hr ⊢
      tauto
  have h' := h.append hkey hlinked halive hbegin hcurrent'
  obtain ⟨s₂, hs₂⟩ : ∃ s₂ : DialogsList K, s₂ = { s with
      nodes := nodes.setPrev last (some s.fresh)
      key := Function.update s.key s.fresh (some key)
      pos := Function.update (Function.update s.pos s.fresh (s.pos last)) last (s.pos last + 1)
      begin := begin
      count := s.count + 1
      rowByKey := Function.update s.rowByKey key (some s.fresh)
      current := current
      fresh := s.fresh + 1 } := ⟨_, rfl⟩
  rw [← hs₂] at h'
  refine ⟨s₂, h', by rw [hs₂], by rw [hs₂], ?_⟩
  rw [addToEnd]
  dsimp only
  rw [← hmade, ← hs₁, hlink, Option.bind_eq_bind, Option.bind_some]
  dsimp only
  have hkey₁ : s₁.rowByKey key = none := by rw [hs₁]; exact hkey
  have hpos : Function.update s.pos s.fresh (s.pos last) last = s.pos last :=
    Function.update_of_ne hne _ _
  rw [emplaceRow, if_pos hkey₁, hs₂, hs₁, addPos]
  dsimp only
  rw [hpos]

theorem addToEnd_spec (h : s.WellFormed l) {key : K} (hkey : s.rowByKey key = none)
    (sortKey : K → ℕ) : ∃ s' l', s.addToEnd sortKey key = some (s.fresh, s') ∧ s'.WellFormed l' ∧
      l'.Perm (l ++ [s.fresh]) := by
  obtain ⟨s₂, h', -, -, hadd⟩ := addToEnd_eq h hkey sortKey
  rw [hadd]
  split_ifs with hmode
  · obtain ⟨s', l', hadjust, hwell, hperm⟩ := adjustByPos_moves h' sortKey
    exact ⟨s', l', by rw [hadjust]; rfl, hwell, hperm⟩
  · exact ⟨_, _, rfl, h', List.Perm.refl _⟩

theorem del_rows {rowByKey : K → Option ℕ} {keyOf : ℕ → Option K}
    (h : ∀ key r, rowByKey key = some r ↔ r ∈ a ++ row :: b ∧ keyOf r = some key) {key : K}
    (hkey : rowByKey key = some row) (hnodup : (a ++ row :: b).Nodup) (other : K) (r : ℕ) :
    Function.update rowByKey key none other = some r ↔ r ∈ a ++ b ∧ keyOf r = some other := by
  obtain ⟨-, -, hra, hrb, -, -⟩ := nodup_parts hnodup
  have hrow : row ∉ a ++ b := fun hmem => (List.mem_append.mp hmem).elim hra hrb
  have hmem : r ∈ a ++ row :: b ↔ r = row ∨ r ∈ a ++ b := by
    simp only [List.mem_append, List.mem_cons]
    tauto
  have hrowKey : keyOf row = some key := ((h key row).mp hkey).2
  by_cases hother : other = key
  · subst hother
    rw [Function.update_self]
    constructor
    · rintro ⟨⟩
    · rintro ⟨hr, hrkey⟩
      rw [(h other r).mpr ⟨hmem.mpr (.inr hr), hrkey⟩] at hkey
      obtain rfl := Option.some.inj hkey
      exact absurd hr hrow
  · rw [Function.update_of_ne hother, h, hmem]
    constructor
    · rintro ⟨rfl | hr, hrkey⟩
      · rw [hrowKey] at hrkey
        exact absurd (Option.some.inj hrkey).symm hother
      · exact ⟨hr, hrkey⟩
    · rintro ⟨hr, hrkey⟩
      exact ⟨.inr hr, hrkey⟩

/-- The list with a row taken out. -/
theorem WellFormed.without (h : s.WellFormed (a ++ row :: b)) {key : K}
    (hkey : s.rowByKey key = some row) {nodes : Nodes ℕ}
    (hlinked : nodes.Linked none (a ++ b ++ [last]) none) (halive : nodes.alive = s.nodes.alive)
    {pos : ℕ → ℤ} (hindexed : Indexed pos 0 (a ++ b ++ [last]))
    (hcurrent : ∃ r ∈ a ++ b ++ [last], s.current = some r) :
    WellFormed { s with
      nodes := { nodes with alive := Function.update nodes.alive row false }
      pos := pos
      begin := (a ++ b ++ [last]).head?
      count := s.count - 1
      rowByKey := Function.update s.rowByKey key none } (a ++ b) := by
  have hnodup := h.nodup
  rw [List.append_assoc, List.cons_append] at hnodup
  obtain ⟨-, -, hra, hrb, -, hrest⟩ := nodup_parts hnodup
  rw [← List.append_assoc] at hrest
  have hmem : ∀ r ∈ a ++ b ++ [last], r ∈ a ++ row :: b ++ [last] ∧ r ≠ row := fun r hr => by
    refine ⟨?_, ?_⟩
    · simp only [List.mem_append, List.mem_cons] at hr ⊢
      tauto
    · rintro rfl
      rw [List.append_assoc] at hr
      exact (List.mem_append.mp hr).elim hra hrb
  refine ⟨hrest, hlinked.congr (fun _ _ => rfl) fun _ _ => rfl, rfl, hindexed, ?_, hcurrent,
    del_rows h.rows hkey (List.nodup_append.mp h.nodup).1, fun r hr => ?_, fun r hr => ?_, fun r hr => ?_⟩
  · dsimp only
    rw [h.count_eq, List.length_append, List.length_append, List.length_cons]
    omega
  · refine h.keyed r ?_
    simp only [List.mem_append, List.mem_cons] at hr ⊢
    tauto
  · dsimp only
    rw [Function.update_of_ne (hmem r hr).2, halive]
    exact h.alive r (hmem r hr).1
  · exact h.fresh r (hmem r hr).1

theorem del_spec (h : s.WellFormed l) (key : K) :
    ∃ s' l', s.del key = some s' ∧ s'.WellFormed l' := by
  rw [del]
  cases hkey : s.rowByKey key with
  | none => exact ⟨s, l, rfl, h⟩
  | some row =>
    obtain ⟨a, b, rfl⟩ := List.append_of_mem ((h.rows key row).mp hkey).1
    obtain ⟨x, hx⟩ : ∃ x, (b ++ [last]).head? = some x := by cases b <;> simp
    have hsplit : a ++ row :: b ++ [last] = a ++ row :: (b ++ [last]) := by simp
    have hlinked := h.linked
    have hnodup := h.nodup
    have hindexed := h.indexed
    rw [hsplit] at hlinked hnodup hindexed
    obtain ⟨-, hb, hra, hrb, hdisjoint, -⟩ := nodup_parts hnodup
    have hnext : s.nodes.next row = (b ++ [last]).head? := (hlinked.at).2
    have hxmem : x ∈ a ++ b ++ [last] := by
      rw [List.append_assoc]
      exact List.mem_append_right a (List.mem_of_head? hx)
    obtain ⟨s₁, hs₁⟩ : ∃ s₁, (if s.current = some row then
        { s with current := s.nodes.next row } else s) = s₁ := ⟨_, rfl⟩
    have hnodes₁ : s₁.nodes = s.nodes := by rw [← hs₁, stepOff_nodes]
    have hsame₁ : s₁.pos = s.pos ∧ s₁.rowByKey = s.rowByKey := by
      rw [← hs₁]
      split_ifs <;> exact ⟨rfl, rfl⟩
    have h₁ : s₁.WellFormed (a ++ row :: b) := by
      rw [← hs₁]
      refine h.stepOff (hnext.trans hx) ?_ row
      rw [hsplit]
      exact List.mem_append_right a (List.mem_cons_of_mem row (List.mem_of_head? hx))
    have hcurrent₁ : ∃ r ∈ a ++ b ++ [last], s₁.current = some r := by
      rw [← hs₁]
      split_ifs with hc
      · exact ⟨x, hxmem, hnext.trans hx⟩
      · obtain ⟨r, hr, hwas⟩ := h.current
        have hne : r ≠ row := fun he => hc (he ▸ hwas)
        refine ⟨r, ?_, hwas⟩
        simp only [List.mem_append, List.mem_cons] at hr ⊢
        tauto
    obtain ⟨-, -, -, hchain⟩ := linked_append.mp hlinked
    obtain ⟨pos, hlower, hmoved, hothers⟩ := lowerPos_spec (s := s₁) (by rw [hnodes₁]; exact hchain) hb
      (fun r hr => h₁.alive r (by simp [hr]))
      (show b.length < s₁.rounds by
        rw [h₁.rounds_eq, List.length_append, List.length_cons]
        omega)
    obtain ⟨s₂, hs₂⟩ : ∃ s₂, s₂ = addPos last (-1) { s₁ with pos := pos } := ⟨_, rfl⟩
    obtain ⟨nodes, hremove, hnodes, halive⟩ := remove_spec (t := s₂) h₁ (by rw [hs₂]; rfl)
      (by rw [hs₂]; rfl)
    refine ⟨{ s₁ with
      nodes := { nodes with alive := Function.update nodes.alive row false }
      pos := s₂.pos
      begin := (a ++ b ++ [last]).head?
      count := s₁.count - 1
      rowByKey := Function.update s₁.rowByKey key none }, a ++ b, ?_, ?_⟩
    · dsimp only
      rw [hs₁, hnodes₁, hnext, hlower, Option.bind_eq_bind, Option.bind_some, ← hs₂, hremove, hs₂]
      rfl
    · refine h₁.without (hsame₁.2 ▸ hkey) hnodes halive ?_ hcurrent₁
      obtain ⟨hia, -, hib⟩ := indexed_append.mp hindexed
      obtain ⟨hib, hilast, -⟩ := indexed_append.mp hib
      have hlastb : last ∉ b := fun hmem => (List.nodup_append.mp hb).2.2 last hmem last (by simp) rfl
      have hpos₂ : ∀ r, r ≠ last → s₂.pos r = pos r := fun r hr => by rw [hs₂, addPos_of_ne hr]
      have hlast₂ : s₂.pos last = s.pos last - 1 := by
        rw [hs₂, addPos_self, ← hsame₁.1, ← hothers last hlastb, sub_eq_add_neg]
      rw [List.append_assoc]
      refine indexed_append.mpr ⟨hia.congr fun r hr => ?_, indexed_append.mpr ⟨?_, ?_, trivial⟩⟩
      · have hrest : r ∉ b ++ [last] := hdisjoint r hr
        rw [List.mem_append, not_or, List.mem_singleton] at hrest
        rw [hpos₂ r hrest.2, hothers r hrest.1, hsame₁.1]
      · have hib' : Indexed s₂.pos (0 + a.length + 1 + -1) b := hib.shift fun r hr => by
          rw [hpos₂ r (ne_of_mem_of_not_mem hr hlastb), hmoved r hr, hsame₁.1, sub_eq_add_neg]
        simpa using hib'
      · rw [hlast₂, hilast]
        ring

end DialogsList

end Keys

end Bettergram.Dialogs
