import Mathlib.Data.List.Induction
import Mathlib.Data.List.Nodup
import Mathlib.Algebra.Order.Ring.Int
import Mathlib.Tactic.Ring
import Mathlib.Logic.Function.Basic

/-! # Doubly linked lists in a heap

The nodes are known by references, each with one to the node before it and one
to the node behind it. A null reference is `none`; following it, or one to a
node that was deleted, fails.
-/

namespace Bettergram.Foundation

structure Nodes (Ref : Type*) where
  prev : Ref → Option Ref
  next : Ref → Option Ref
  alive : Ref → Bool

namespace Nodes

variable {Ref : Type*} {nodes : Nodes Ref} {p n : Option Ref} {a b l : List Ref} {r : Ref}

/-- The node that a reference leads to. -/
def follow (nodes : Nodes Ref) (p : Option Ref) : Option Ref := p.filter nodes.alive

theorem follow_some (h : nodes.alive r) : nodes.follow (some r) = some r := by
  rw [follow, Option.filter_some, if_pos h]

section Walk

variable [DecidableEq Ref]

/-- Goes on from a node until what is next is the stop, or until `test` is lost. -/
def walk (nodes : Nodes Ref) (link : Ref → Option Ref) (stop : Option Ref) (test : Ref → Bool) :
    ℕ → Ref → Option Ref
  | 0, _ => none
  | rounds + 1, r =>
    if link r = stop then some r
    else do
      let x ← nodes.follow (link r)
      if test x then walk nodes link stop test rounds x else some r

end Walk

section Writes

variable [DecidableEq Ref]

def setPrev (r : Ref) (value : Option Ref) (nodes : Nodes Ref) : Nodes Ref :=
  { nodes with prev := Function.update nodes.prev r value }

def setNext (r : Ref) (value : Option Ref) (nodes : Nodes Ref) : Nodes Ref :=
  { nodes with next := Function.update nodes.next r value }

/-- `if (p) p->prev = value` -/
def setPrevOf (p value : Option Ref) (nodes : Nodes Ref) : Option (Nodes Ref) :=
  match p with
  | none => some nodes
  | some _ => (nodes.follow p).map fun r => nodes.setPrev r value

/-- `if (p) p->next = value` -/
def setNextOf (p value : Option Ref) (nodes : Nodes Ref) : Option (Nodes Ref) :=
  match p with
  | none => some nodes
  | some _ => (nodes.follow p).map fun r => nodes.setNext r value

/-- Takes a node out of its list; its own references stay. -/
def unlink (r : Ref) (nodes : Nodes Ref) : Option (Nodes Ref) := do
  let nodes ← nodes.setPrevOf (nodes.next r) (nodes.prev r)
  nodes.setNextOf (nodes.prev r) (nodes.next r)

def linkBefore (r before : Ref) (nodes : Nodes Ref) : Option (Nodes Ref) :=
  let nodes := (nodes.setPrev r (nodes.prev before)).setNext r (some before)
  (nodes.setPrev before (some r)).setNextOf (nodes.prev r) (some r)

def linkAfter (r after : Ref) (nodes : Nodes Ref) : Option (Nodes Ref) :=
  let nodes := (nodes.setNext r (nodes.next after)).setPrev r (some after)
  (nodes.setNext after (some r)).setPrevOf (nodes.next r) (some r)

end Writes

/-! ## Linked lists -/

/-- The nodes are linked one after the other, from what is before them to what is behind. -/
def Linked (nodes : Nodes Ref) : Option Ref → List Ref → Option Ref → Prop
  | _, [], _ => True
  | p, r :: l, n =>
    nodes.prev r = p ∧ nodes.next r = l.head?.or n ∧ Linked nodes (some r) l n

theorem head?_append_or (a b : List Ref) (n : Option Ref) :
    (a ++ b).head?.or n = a.head?.or (b.head?.or n) := by
  cases a <;> simp

theorem getLast?_cons_or (r : Ref) (l : List Ref) (p : Option Ref) :
    (r :: l).getLast?.or p = l.getLast?.or (some r) := by
  cases hl : l.getLast? with
  | none =>
    obtain rfl := List.getLast?_eq_none_iff.mp hl
    rfl
  | some x => simp [List.getLast?_cons, hl]

theorem linked_append : nodes.Linked p (a ++ b) n ↔
    nodes.Linked p a (b.head?.or n) ∧ nodes.Linked (a.getLast?.or p) b n := by
  induction a generalizing p with
  | nil => simp [Linked]
  | cons r a ih =>
    rw [List.cons_append, Linked, Linked, ih, head?_append_or, getLast?_cons_or, and_assoc, and_assoc]

theorem Linked.congr {nodes' : Nodes Ref} (h : nodes.Linked p l n)
    (hprev : ∀ r ∈ l, nodes'.prev r = nodes.prev r) (hnext : ∀ r ∈ l, nodes'.next r = nodes.next r) :
    nodes'.Linked p l n := by
  induction l generalizing p with
  | nil => trivial
  | cons r l ih =>
    obtain ⟨hp, hn, hl⟩ := h
    refine ⟨(hprev r List.mem_cons_self).trans hp, (hnext r List.mem_cons_self).trans hn, ih hl ?_ ?_⟩
    · exact fun x hx => hprev x (List.mem_cons_of_mem r hx)
    · exact fun x hx => hnext x (List.mem_cons_of_mem r hx)

theorem nodup_parts (h : (a ++ r :: b).Nodup) :
    a.Nodup ∧ b.Nodup ∧ r ∉ a ∧ r ∉ b ∧ (∀ x ∈ a, x ∉ b) ∧ (a ++ b).Nodup := by
  obtain ⟨hr, hab⟩ := List.nodup_middle.mp h |> List.nodup_cons.mp
  obtain ⟨ha, hb, hdisjoint⟩ := List.nodup_append.mp hab
  rw [List.mem_append, not_or] at hr
  exact ⟨ha, hb, hr.1, hr.2, fun x hx hxb => hdisjoint x hx x hxb rfl, hab⟩

/-- The links of a node within a list. -/
theorem Linked.at (h : nodes.Linked none (a ++ r :: b) none) :
    nodes.prev r = a.getLast? ∧ nodes.next r = b.head? := by
  obtain ⟨-, hprev, hnext, -⟩ := linked_append.mp h
  exact ⟨by simpa using hprev, by simpa using hnext⟩

theorem Linked.exists_prev (h : nodes.Linked none l none) (hr : r ∈ l) {x : Ref}
    (hx : nodes.prev r = some x) : ∃ a b, l = a ++ x :: r :: b := by
  obtain ⟨a, b, rfl⟩ := List.append_of_mem hr
  rw [(h.at).1, List.getLast?_eq_some_iff] at hx
  obtain ⟨a, rfl⟩ := hx
  exact ⟨a, b, by simp⟩

theorem Linked.exists_next (h : nodes.Linked none l none) (hr : r ∈ l) {x : Ref}
    (hx : nodes.next r = some x) : ∃ a b, l = a ++ r :: x :: b := by
  obtain ⟨a, b, rfl⟩ := List.append_of_mem hr
  rw [(h.at).2, List.head?_eq_some_iff] at hx
  obtain ⟨b, rfl⟩ := hx
  exact ⟨a, b, rfl⟩

/-- A list and what follows on its nodes' links are the same. -/
theorem Linked.head?_tail_eq {l' : List Ref} (h : nodes.Linked p l none) (h' : nodes.Linked p l' none)
    (hhead : l.head? = l'.head?) : l = l' := by
  induction l generalizing p l' with
  | nil => exact (List.head?_eq_none_iff.mp hhead.symm).symm
  | cons r l ih =>
    obtain ⟨l', rfl⟩ := List.head?_eq_some_iff.mp hhead.symm
    have hnext : l.head? = l'.head? := by simpa using h.2.1.symm.trans h'.2.1
    rw [ih h.2.2 h'.2.2 hnext]

section Walk

variable [DecidableEq Ref] (test : Ref → Bool)

/-- Going back ends at the first of the nodes before the start that keep the test. -/
theorem walk_prev (h : nodes.Linked none (a ++ r :: b) none)
    (halive : ∀ x ∈ a ++ r :: b, nodes.alive x) {rounds : ℕ} (hrounds : a.length < rounds) :
    ∃ a' m, a = a' ++ m ∧ (∀ x ∈ m, test x) ∧ (∀ x ∈ a'.getLast?, test x = false) ∧
      nodes.walk nodes.prev none test rounds r = (m ++ [r]).head? := by
  induction rounds generalizing a b r with
  | zero => omega
  | succ rounds ih =>
    obtain ⟨hprev, -⟩ := h.at
    rw [walk, hprev]
    cases a using List.reverseRecOn with
    | nil => exact ⟨[], [], rfl, by simp, by simp, rfl⟩
    | append_singleton a x =>
      rw [List.getLast?_concat, if_neg (by simp), follow_some (halive x (by simp)),
        Option.bind_eq_bind, Option.bind_some]
      by_cases htest : test x
      · rw [List.append_assoc, List.singleton_append] at h halive
        rw [List.length_append, List.length_singleton] at hrounds
        obtain ⟨a', m, rfl, hm, ha', hwalk⟩ := ih h halive (by omega)
        refine ⟨a', m ++ [x], by simp, ?_, ha', ?_⟩
        · intro y hy
          rcases List.mem_append.mp hy with hy | hy
          · exact hm y hy
          · rw [List.mem_singleton.mp hy]
            exact htest
        · rw [if_pos htest, hwalk]
          cases m <;> simp
      · refine ⟨a ++ [x], [], by simp, by simp, ?_, by simp [htest]⟩
        rw [List.getLast?_concat]
        rintro y ⟨⟩
        simpa using htest

/-- Going on ends at the last of the nodes before the stop that keep the test. -/
theorem walk_next {c : List Ref} (h : nodes.Linked none (a ++ r :: (b ++ c)) none)
    (hnodup : (a ++ r :: (b ++ c)).Nodup) (halive : ∀ x ∈ a ++ r :: (b ++ c), nodes.alive x)
    {rounds : ℕ} (hrounds : b.length < rounds) :
    ∃ m b', b = m ++ b' ∧ (∀ x ∈ m, test x) ∧ (∀ x ∈ b'.head?, test x = false) ∧
      nodes.walk nodes.next c.head? test rounds r = (r :: m).getLast? := by
  induction rounds generalizing a b r with
  | zero => omega
  | succ rounds ih =>
    obtain ⟨-, hnext⟩ := h.at
    rw [walk, hnext]
    cases b with
    | nil => exact ⟨[], [], rfl, by simp, by simp, by simp⟩
    | cons x b =>
      have hstop : some x ≠ c.head? := by
        intro heq
        have hxc : x ∈ c := List.mem_of_head? heq.symm
        have hdisjoint := (nodup_parts hnodup).2.1
        rw [List.cons_append] at hdisjoint
        exact (List.nodup_cons.mp hdisjoint).1 (List.mem_append_right b hxc)
      rw [List.cons_append, List.head?_cons, if_neg hstop, follow_some (halive x (by simp)),
        Option.bind_eq_bind, Option.bind_some]
      by_cases htest : test x
      · have hsplit : a ++ r :: (x :: b ++ c) = (a ++ [r]) ++ x :: (b ++ c) := by simp
        rw [hsplit] at h hnodup halive
        obtain ⟨m, b', rfl, hm, hb', hwalk⟩ := ih h hnodup halive
          (Nat.lt_of_succ_lt_succ hrounds)
        refine ⟨x :: m, b', rfl, ?_, hb', ?_⟩
        · intro y hy
          rcases List.mem_cons.mp hy with rfl | hy
          · exact htest
          · exact hm y hy
        · rw [if_pos htest, hwalk, List.getLast?_cons_cons]
      · refine ⟨[], x :: b, rfl, by simp, ?_, by simp [htest]⟩
        rintro y ⟨⟩
        simpa using htest

end Walk

section Writes

variable [DecidableEq Ref]

theorem Linked.setPrev (h : nodes.Linked p l n) (hr : r ∉ l) (value : Option Ref) :
    (nodes.setPrev r value).Linked p l n :=
  h.congr (fun _ hx => Function.update_of_ne (ne_of_mem_of_not_mem hx hr) _ _) fun _ _ => rfl

theorem Linked.setNext (h : nodes.Linked p l n) (hr : r ∉ l) (value : Option Ref) :
    (nodes.setNext r value).Linked p l n :=
  h.congr (fun _ _ => rfl) fun _ hx => Function.update_of_ne (ne_of_mem_of_not_mem hx hr) _ _

/-- What is before a list is changed by a write to its first node. -/
theorem Linked.setPrev_head (h : nodes.Linked p (r :: l) n) (hnodup : (r :: l).Nodup)
    (value : Option Ref) : (nodes.setPrev r value).Linked value (r :: l) n :=
  ⟨Function.update_self .., h.2.1, h.2.2.setPrev (List.nodup_cons.mp hnodup).1 value⟩

theorem Linked.setNext_last (h : nodes.Linked p (l ++ [r]) n) (hnodup : (l ++ [r]).Nodup)
    (value : Option Ref) : (nodes.setNext r value).Linked p (l ++ [r]) value := by
  have hr : r ∉ l := fun hmem => (List.nodup_append.mp hnodup).2.2 r hmem r (by simp) rfl
  obtain ⟨hl, hprev, -, -⟩ := linked_append.mp h
  refine linked_append.mpr ⟨?_, hprev, Function.update_self .., trivial⟩
  exact hl.setNext hr value

theorem setNextOf_setPrev {nodes' : Nodes Ref} {value : Option Ref}
    (h : nodes.setNextOf p value = some nodes') (r : Ref) (prev : Option Ref) :
    (nodes.setPrev r prev).setNextOf p value = some (nodes'.setPrev r prev) := by
  cases p with
  | none =>
    obtain rfl := Option.some.inj h
    rfl
  | some x =>
    obtain ⟨y, hy, rfl⟩ := Option.map_eq_some_iff.mp h
    have hfollow : (nodes.setPrev r prev).follow (some x) = some y := hy
    rw [setNextOf, hfollow]
    rfl

theorem setPrevOf_head (h : nodes.Linked p b n) (hnodup : b.Nodup) (halive : ∀ r ∈ b, nodes.alive r)
    (value : Option Ref) : ∃ nodes', nodes.setPrevOf b.head? value = some nodes' ∧
      nodes'.Linked value b n ∧ nodes'.alive = nodes.alive ∧ nodes'.next = nodes.next ∧
      ∀ r ∉ b, nodes'.prev r = nodes.prev r := by
  cases b with
  | nil => exact ⟨nodes, rfl, trivial, rfl, rfl, fun _ _ => rfl⟩
  | cons x b =>
    refine ⟨nodes.setPrev x value, ?_, h.setPrev_head hnodup value, rfl, rfl, fun r hr => ?_⟩
    · rw [List.head?_cons, setPrevOf, follow_some (halive x List.mem_cons_self), Option.map_some]
    · exact Function.update_of_ne (fun hx => hr (by rw [hx]; exact List.mem_cons_self)) _ _

theorem setNextOf_last (h : nodes.Linked p a n) (hnodup : a.Nodup) (halive : ∀ r ∈ a, nodes.alive r)
    (value : Option Ref) : ∃ nodes', nodes.setNextOf a.getLast? value = some nodes' ∧
      nodes'.Linked p a value ∧ nodes'.alive = nodes.alive ∧ nodes'.prev = nodes.prev ∧
      ∀ r ∉ a, nodes'.next r = nodes.next r := by
  cases a using List.reverseRecOn with
  | nil => exact ⟨nodes, rfl, trivial, rfl, rfl, fun _ _ => rfl⟩
  | append_singleton a x =>
    have hx : x ∈ a ++ [x] := List.mem_append_right a List.mem_cons_self
    refine ⟨nodes.setNext x value, ?_, h.setNext_last hnodup value, rfl, rfl, fun r hr => ?_⟩
    · rw [List.getLast?_concat, setNextOf, follow_some (halive x hx), Option.map_some]
    · exact Function.update_of_ne (fun he => hr (by rw [he]; exact hx)) _ _

theorem unlink_spec (h : nodes.Linked none (a ++ r :: b) none) (hnodup : (a ++ r :: b).Nodup)
    (halive : ∀ x ∈ a ++ r :: b, nodes.alive x) : ∃ nodes', nodes.unlink r = some nodes' ∧
      nodes'.Linked none (a ++ b) none ∧ nodes'.alive = nodes.alive ∧
      ∀ x ∉ a ++ b, nodes'.prev x = nodes.prev x ∧ nodes'.next x = nodes.next x := by
  obtain ⟨ha, hb, hra, hrb, hab, -⟩ := nodup_parts hnodup
  obtain ⟨hprev, hnext⟩ := h.at
  obtain ⟨hla, -, -, hlb⟩ := linked_append.mp h
  obtain ⟨mid, hmid, hmidb, hmidAlive, hmidNext, hmidPrev⟩ := setPrevOf_head hlb hb
    (fun x hx => halive x (by simp [hx])) (nodes.prev r)
  have hmida : mid.Linked none a (some r) :=
    (hla.congr (fun x hx => hmidPrev x (hab x hx)) fun x _ => congrFun hmidNext x)
  obtain ⟨last, hlast, hlasta, hlastAlive, hlastPrev, hlastNext⟩ := setNextOf_last hmida ha
    (fun x hx => by rw [hmidAlive]; exact halive x (by simp [hx])) (nodes.next r)
  refine ⟨last, ?_, linked_append.mpr ⟨?_, ?_⟩, hlastAlive.trans hmidAlive, fun x hx => ?_⟩
  · rw [unlink, hnext, hmid, Option.bind_eq_bind, Option.bind_some, hmidPrev r hrb, hmidNext, hprev]
    exact hlast
  · rw [Option.or_none, ← hnext]
    exact hlasta
  · rw [Option.or_none, ← hprev]
    exact hmidb.congr (fun x _ => congrFun hlastPrev x) fun x hx =>
      hlastNext x fun hxa => hab x hxa hx
  · rw [List.mem_append, not_or] at hx
    rw [hlastPrev, hmidPrev x hx.2, hlastNext x hx.1, hmidNext]
    exact ⟨rfl, rfl⟩

theorem linkBefore_spec {x : Ref} (h : nodes.Linked none (a ++ x :: b) none)
    (hnodup : (a ++ r :: x :: b).Nodup) (halive : ∀ y ∈ a ++ x :: b, nodes.alive y) :
    ∃ nodes', nodes.linkBefore r x = some nodes' ∧
      nodes'.Linked none (a ++ r :: x :: b) none ∧ nodes'.alive = nodes.alive ∧
      ∀ y ∉ a ++ r :: x :: b, nodes'.prev y = nodes.prev y ∧ nodes'.next y = nodes.next y := by
  obtain ⟨ha, hb, hra, hrb, hab, -⟩ := nodup_parts hnodup
  have hxa : x ∉ a := fun hx => hab x hx List.mem_cons_self
  have hrx : r ≠ x := fun he => hrb (he ▸ List.mem_cons_self)
  obtain ⟨hla, hlb⟩ := linked_append.mp h
  obtain ⟨start, hstart⟩ : ∃ start, start =
      ((nodes.setPrev r (nodes.prev x)).setNext r (some x)).setPrev x (some r) := ⟨_, rfl⟩
  have hstarta : start.Linked none a (some x) := by
    rw [hstart]
    exact ((hla.setPrev hra _).setNext hra _).setPrev hxa _
  have hstartb : start.Linked (some r) (x :: b) none := by
    rw [hstart]
    exact ((hlb.setPrev hrb _).setNext hrb _).setPrev_head hb _
  have hprev : start.prev r = a.getLast? := by
    rw [hstart]
    exact (Function.update_of_ne hrx _ _).trans ((Function.update_self ..).trans (h.at).1)
  have hnext : start.next r = some x := by
    rw [hstart]
    exact Function.update_self ..
  have halive' : start.alive = nodes.alive := by rw [hstart]; rfl
  obtain ⟨last, hlast, hlasta, hlastAlive, hlastPrev, hlastNext⟩ := setNextOf_last hstarta ha
    (fun y hy => by rw [halive']; exact halive y (by simp [hy])) (some r)
  refine ⟨last, ?_, linked_append.mpr ⟨hlasta, ?_, ?_, ?_⟩, hlastAlive.trans halive', fun y hy => ?_⟩
  · rw [linkBefore, ← hlast, ← hprev, hstart]
    congr 1
    exact (Function.update_of_ne hrx _ _).symm
  · rw [hlastPrev, hprev, Option.or_none]
  · rw [hlastNext r hra, hnext]
    rfl
  · exact hstartb.congr (fun y _ => congrFun hlastPrev y) fun y hy =>
      hlastNext y fun hya => hab y hya hy
  · simp only [List.mem_append, List.mem_cons, not_or] at hy
    rw [hlastPrev, hlastNext y hy.1, hstart]
    exact ⟨(Function.update_of_ne hy.2.2.1 _ _).trans (Function.update_of_ne hy.2.1 _ _),
      Function.update_of_ne hy.2.1 _ _⟩

theorem linkAfter_spec {x : Ref} (h : nodes.Linked none (a ++ x :: b) none)
    (hnodup : (a ++ x :: r :: b).Nodup) (halive : ∀ y ∈ a ++ x :: b, nodes.alive y) :
    ∃ nodes', nodes.linkAfter r x = some nodes' ∧
      nodes'.Linked none (a ++ x :: r :: b) none ∧ nodes'.alive = nodes.alive ∧
      ∀ y ∉ a ++ x :: r :: b, nodes'.prev y = nodes.prev y ∧ nodes'.next y = nodes.next y := by
  have hsplit : ∀ l : List Ref, a ++ x :: l = (a ++ [x]) ++ l := fun l => by simp
  have hnext := (h.at).2
  rw [hsplit] at h hnodup halive
  obtain ⟨ha, hb, hra, hrb, hab, -⟩ := nodup_parts hnodup
  have hxb : x ∉ b := hab x (by simp)
  have hrx : r ≠ x := fun he => hra (by simp [he])
  obtain ⟨hla, hlb⟩ := linked_append.mp h
  obtain ⟨start, hstart⟩ : ∃ start, start =
      ((nodes.setNext r (nodes.next x)).setPrev r (some x)).setNext x (some r) := ⟨_, rfl⟩
  have hstarta : start.Linked none (a ++ [x]) (some r) := by
    rw [hstart]
    exact ((hla.setNext hra _).setPrev hra _).setNext_last ha _
  have hstartb : start.Linked (some x) b none := by
    rw [hstart]
    simpa using ((hlb.setNext hrb _).setPrev hrb _).setNext hxb _
  have hprev' : start.prev r = some x := by
    rw [hstart]
    exact Function.update_self ..
  have hnext' : start.next r = b.head? := by
    rw [hstart]
    exact (Function.update_of_ne hrx _ _).trans ((Function.update_self ..).trans hnext)
  have halive' : start.alive = nodes.alive := by rw [hstart]; rfl
  obtain ⟨last, hlast, hlastb, hlastAlive, hlastNext, hlastPrev⟩ := setPrevOf_head hstartb hb
    (fun y hy => by rw [halive']; exact halive y (by simp [hy])) (some r)
  refine ⟨last, ?_, ?_, hlastAlive.trans halive', fun y hy => ?_⟩
  · rw [linkAfter, ← hlast, ← hnext', hstart]
    congr 1
    exact (Function.update_of_ne hrx _ _).symm
  · rw [hsplit]
    refine linked_append.mpr ⟨?_, ?_, ?_, ?_⟩
    · exact hstarta.congr (fun y hy => hlastPrev y (hab y hy)) fun y _ => congrFun hlastNext y
    · rw [hlastPrev r hrb, hprev']
      simp
    · rw [hlastNext, hnext', Option.or_none]
    · exact hlastb
  · simp only [List.mem_append, List.mem_cons, not_or] at hy
    rw [hlastNext, hlastPrev y hy.2.2.2, hstart]
    exact ⟨Function.update_of_ne hy.2.2.1 _ _,
      (Function.update_of_ne hy.2.1 _ _).trans (Function.update_of_ne hy.2.2.1 _ _)⟩

end Writes

/-! ## Numbered nodes -/

/-- The nodes of a list are numbered one after the other. -/
def Indexed (pos : Ref → ℤ) : ℤ → List Ref → Prop
  | _, [] => True
  | i, r :: l => pos r = i ∧ Indexed pos (i + 1) l

variable {pos pos' : Ref → ℤ} {i : ℤ}

theorem indexed_append : Indexed pos i (a ++ b) ↔ Indexed pos i a ∧ Indexed pos (i + a.length) b := by
  induction a generalizing i with
  | nil => simp [Indexed]
  | cons r a ih =>
    rw [List.cons_append, Indexed, Indexed, ih, and_assoc, List.length_cons, Nat.cast_succ,
      add_assoc, add_comm (1 : ℤ)]

theorem Indexed.shift {d : ℤ} (h : Indexed pos i l) (hpos : ∀ r ∈ l, pos' r = pos r + d) :
    Indexed pos' (i + d) l := by
  induction l generalizing i with
  | nil => trivial
  | cons r l ih =>
    refine ⟨by rw [hpos r List.mem_cons_self, h.1], ?_⟩
    rw [add_right_comm]
    exact ih h.2 fun x hx => hpos x (List.mem_cons_of_mem r hx)

theorem Indexed.congr (h : Indexed pos i l) (hpos : ∀ r ∈ l, pos' r = pos r) : Indexed pos' i l := by
  simpa using h.shift (d := 0) fun r hr => (hpos r hr).trans (add_zero _).symm

theorem Indexed.at (h : Indexed pos i (a ++ r :: b)) : pos r = i + a.length :=
  (indexed_append.mp h).2.1

/-- Numbers that differ from others by a number on some nodes, and by another one on one node. -/
structure Shifted (pos pos' : Ref → ℤ) (m : List Ref) (d : ℤ) (r : Ref) (e : ℤ) : Prop where
  moved : ∀ x ∈ m, pos' x = pos x + d
  own : pos' r = pos r + e
  others : ∀ x ∉ m, x ≠ r → pos' x = pos x

theorem Shifted.nil (pos : Ref → ℤ) (d : ℤ) (r : Ref) : Shifted pos pos [] d r 0 :=
  ⟨by simp, (add_zero _).symm, fun _ _ _ => rfl⟩

/-- A node that goes before some others takes the number of the first of them. -/
theorem Indexed.moveUp {m : List Ref} (h : Indexed pos i (a ++ (m ++ r :: b)))
    (hnodup : (a ++ (m ++ r :: b)).Nodup) (hs : Shifted pos pos' m 1 r (-m.length)) :
    Indexed pos' i (a ++ r :: (m ++ b)) := by
  obtain ⟨-, hmb, hdisjoint⟩ := List.nodup_append.mp hnodup
  obtain ⟨-, hb, hrm, hrb, hmdisjoint, -⟩ := nodup_parts hmb
  obtain ⟨ha, hrest⟩ := indexed_append.mp h
  obtain ⟨hm, hr, hlast⟩ := indexed_append.mp hrest
  refine indexed_append.mpr ⟨ha.congr fun x hx => ?_, ?_, indexed_append.mpr ⟨?_, ?_⟩⟩
  · exact hs.others x (fun hmem => hdisjoint x hx x (List.mem_append_left _ hmem) rfl)
      fun he => hdisjoint x hx r (by simp) he
  · rw [hs.own, hr]
    ring
  · exact hm.shift hs.moved
  · rw [add_right_comm]
    exact hlast.congr fun x hx => hs.others x (fun hmem => hmdisjoint x hmem hx)
      (ne_of_mem_of_not_mem hx hrb)

/-- A node that goes behind some others takes the number of the last of them. -/
theorem Indexed.moveDown {m : List Ref} (h : Indexed pos i (a ++ r :: (m ++ b)))
    (hnodup : (a ++ r :: (m ++ b)).Nodup) (hs : Shifted pos pos' m (-1) r m.length) :
    Indexed pos' i (a ++ (m ++ r :: b)) := by
  obtain ⟨-, hmb, hra, hrmb, hdisjoint, -⟩ := nodup_parts hnodup
  obtain ⟨-, -, hmdisjoint⟩ := List.nodup_append.mp hmb
  obtain ⟨ha, hr, hrest⟩ := indexed_append.mp h
  obtain ⟨hm, hlast⟩ := indexed_append.mp hrest
  refine indexed_append.mpr ⟨ha.congr fun x hx => ?_, indexed_append.mpr ⟨?_, ?_, ?_⟩⟩
  · exact hs.others x (fun hmem => hdisjoint x hx (List.mem_append_left _ hmem))
      (ne_of_mem_of_not_mem hx hra)
  · simpa using hm.shift hs.moved
  · rw [hs.own, hr]
  · rw [add_right_comm]
    exact hlast.congr fun x hx => hs.others x (fun hmem => hmdisjoint x hmem x hx rfl)
      fun he => hrmb (by rw [← he]; exact List.mem_append_right m hx)

end Nodes

end Bettergram.Foundation
