import Bettergram.Foundation.LinkedList
import Mathlib.Data.List.Perm.Subperm

/-! # The queue of file loaders

The loaders of a queue are linked in the order in which they may load parts.
Those that were started last with priority come first.
-/

namespace Bettergram.Storage
open Foundation

/-- The loaders are known by the order they were made in. A null pointer is `none`; so is what an
operation gives that follows one, or a loader that is gone. -/
structure FileLoaderQueue where
  nodes : Nodes ℕ
  queueStart : Option ℕ
  queueEnd : Option ℕ
  inQueue : ℕ → Bool
  priority : ℕ → ℤ
  paused : ℕ → Bool
  finished : ℕ → Bool
  /-- The priority of the downloader. -/
  currentPriority : ℤ
  made : ℕ

/-- Where a loader goes: nowhere, or to the side of one that may be null. -/
inductive Neighbour
  | stay
  | before (x : Option ℕ)
  | after (x : Option ℕ)

namespace FileLoaderQueue

def new : FileLoaderQueue where
  nodes := ⟨fun _ => none, fun _ => none, fun _ => false⟩
  queueStart := none
  queueEnd := none
  inQueue _ := false
  priority _ := 0
  paused _ := false
  finished _ := false
  currentPriority := 1
  made := 0

def create (s : FileLoaderQueue) : FileLoaderQueue :=
  { s with
    nodes := { s.nodes with alive := Function.update s.nodes.alive s.made true }
    made := s.made + 1 }

/-- More rounds than any loop over the loaders makes; a loop that needs more does not end. -/
def rounds (s : FileLoaderQueue) : ℕ := s.made + 1

def removeFromQueue (r : ℕ) (s : FileLoaderQueue) : Option FileLoaderQueue :=
  if ¬s.inQueue r then some s
  else do
    let nodes ← s.nodes.unlink r
    some { s with
      nodes := (nodes.setPrev r none).setNext r none
      queueEnd := if s.queueEnd = some r then s.nodes.prev r else s.queueEnd
      queueStart := if s.queueStart = some r then s.nodes.next r else s.queueStart
      inQueue := Function.update s.inQueue r false }

/-! ## Where a started loader goes -/

/-- `p && test(p->_priority)` -/
def priorityIs (p : Option ℕ) (test : ℤ → Bool) (s : FileLoaderQueue) : Option Bool :=
  match p with
  | none => some false
  | some _ => (s.nodes.follow p).map fun x => test (s.priority x)

/-- `while (after->_next && after->_next->_priority == currentPriority) after = after->_next` -/
def lastCurrent (after : ℕ) (s : FileLoaderQueue) : Option ℕ :=
  s.nodes.walk s.nodes.next none (fun x => s.priority x = s.currentPriority) s.rounds after

/-- `while (before->_prev && test(before->_prev->_priority)) before = before->_prev` -/
def backWhile (test : ℤ → Bool) (before : ℕ) (s : FileLoaderQueue) : Option ℕ :=
  s.nodes.walk s.nodes.prev none (fun x => test (s.priority x)) s.rounds before

/-- For a queued loader that has the current priority. -/
def neighbourOfCurrent (r : ℕ) (loadFirst : Bool) (s : FileLoaderQueue) : Option Neighbour :=
  if loadFirst then
    if s.nodes.prev r = none then some .stay else some (.before s.queueStart)
  else do
    let lower ← s.priorityIs (s.nodes.next r) fun p => p < s.currentPriority
    if s.nodes.next r = none ∨ lower then some .stay
    else
      let after ← s.nodes.follow (s.nodes.next r)
      let after ← s.lastCurrent after
      some (.after (some after))

/-- For a loader that was just given the current priority. -/
def neighbourOfRaised (r : ℕ) (loadFirst : Bool) (s : FileLoaderQueue) : Option Neighbour :=
  if loadFirst then
    if s.inQueue r ∧ s.nodes.prev r = none then some .stay else some (.before s.queueStart)
  else if s.inQueue r then do
    let nextCurrent ← s.priorityIs (s.nodes.next r) fun p => p = s.currentPriority
    if nextCurrent then
      let after ← s.nodes.follow (s.nodes.next r)
      let after ← s.lastCurrent after
      some (.after (some after))
    else
      let prevLower ← s.priorityIs (s.nodes.prev r) fun p => p < s.currentPriority
      if prevLower then
        let before ← s.nodes.follow (s.nodes.prev r)
        let before ← s.backWhile (fun p => p < s.currentPriority) before
        some (.before (some before))
      else some .stay
  else do
    let startCurrent ← s.priorityIs s.queueStart fun p => p = s.currentPriority
    if startCurrent then
      let after ← s.nodes.follow s.queueStart
      let after ← s.lastCurrent after
      some (.after (some after))
    else some (.before s.queueStart)

/-- For a loader that is started without priority. -/
def neighbourOfOther (r : ℕ) (loadFirst : Bool) (s : FileLoaderQueue) : Option Neighbour :=
  if loadFirst then do
    let prevCurrent ← s.priorityIs (s.nodes.prev r) fun p => p = s.currentPriority
    if s.inQueue r ∧ (s.nodes.prev r = none ∨ prevCurrent) then some .stay
    else
      let before ← s.nodes.follow (s.nodes.prev r)
      let before ← s.backWhile (fun p => p ≠ s.currentPriority) before
      some (.before (some before))
  else if s.inQueue r ∧ s.nodes.next r = none then some .stay
  else some (.after s.queueEnd)

/-- Puts the loader, which is in no queue, before or behind its neighbour. -/
def place (r : ℕ) (neighbour : Neighbour) (s : FileLoaderQueue) : Option FileLoaderQueue :=
  if s.queueStart = none then some { s with queueStart := some r, queueEnd := some r }
  else
    match neighbour with
    | .before (some x) =>
      if some x = s.nodes.next r then some s
      else do
        let x ← s.nodes.follow (some x)
        let nodes ← s.nodes.linkBefore r x
        let start ← nodes.follow s.queueStart
        some { s with
          nodes := nodes
          queueStart := if nodes.prev start = none then s.queueStart else nodes.prev start }
    | .after (some x) =>
      if some x = s.nodes.prev r then some s
      else do
        let x ← s.nodes.follow (some x)
        let nodes ← s.nodes.linkAfter r x
        let last ← nodes.follow s.queueEnd
        some { s with
          nodes := nodes
          queueEnd := if nodes.next last = none then s.queueEnd else nodes.next last }
    -- "Queue Error: _start && !before && !after"
    | _ => some s

/-- Leaves the loader where it is, or takes it out of its place to put it next to the neighbour. -/
def settle (r : ℕ) (neighbour : Neighbour) (s : FileLoaderQueue) : Option FileLoaderQueue :=
  match neighbour with
  | .stay => some s
  | neighbour => do
    let s ← s.removeFromQueue r
    place r neighbour { s with inQueue := Function.update s.inQueue r true }

/-- The part of `start` from the choice of a neighbour on. -/
def enqueue (r : ℕ) (loadFirst prior : Bool) (s : FileLoaderQueue) : Option FileLoaderQueue :=
  if ¬prior then do
    let neighbour ← s.neighbourOfOther r loadFirst
    s.settle r neighbour
  else if s.inQueue r ∧ s.priority r = s.currentPriority then do
    let neighbour ← s.neighbourOfCurrent r loadFirst
    s.settle r neighbour
  else do
    let s := { s with priority := Function.update s.priority r s.currentPriority }
    let neighbour ← s.neighbourOfRaised r loadFirst
    s.settle r neighbour

/-! ## Calls -/

/-- The loader has all parts, or is given up. -/
def finish (r : ℕ) (s : FileLoaderQueue) : Option FileLoaderQueue :=
  removeFromQueue r { s with finished := Function.update s.finished r true }

def cancel (r : ℕ) (s : FileLoaderQueue) : Option FileLoaderQueue := s.finish r

/-- What a start finds besides the queue: something local to load, a loader for local files only,
a file that does not open. -/
structure StartConditions where
  loadsLocal : Bool
  localOnly : Bool
  openFails : Bool

/-- Whether the call comes to the choice of a neighbour. -/
def reachesQueue (r : ℕ) (conditions : StartConditions) (s : FileLoaderQueue) : Bool :=
  !(s.finished r || conditions.loadsLocal || conditions.localOnly || conditions.openFails)

def start (r : ℕ) (loadFirst prior : Bool) (conditions : StartConditions) (s : FileLoaderQueue) :
    Option FileLoaderQueue :=
  let s := { s with paused := Function.update s.paused r false }
  if s.finished r ∨ conditions.loadsLocal then some s
  else if conditions.localOnly ∨ conditions.openFails then s.cancel r
  else s.enqueue r loadFirst prior

def pause (r : ℕ) (s : FileLoaderQueue) : Option FileLoaderQueue :=
  (s.removeFromQueue r).map fun s => { s with paused := Function.update s.paused r true }

/-- The destructor. -/
def destroy (r : ℕ) (s : FileLoaderQueue) : Option FileLoaderQueue :=
  (s.removeFromQueue r).map fun s =>
    { s with nodes := { s.nodes with alive := Function.update s.nodes.alive r false } }

def clearPriorities (s : FileLoaderQueue) : FileLoaderQueue :=
  { s with currentPriority := s.currentPriority + 1 }

end FileLoaderQueue

end Bettergram.Storage

/-! ## The links of the queue

A loader that is taken out of the queue or put next to another one leaves the
rest of the queue as it is.
-/

namespace Bettergram.Storage
open Foundation Foundation.Nodes

variable {s : FileLoaderQueue} {l a b : List ℕ} {r x : ℕ}

namespace FileLoaderQueue

/-- The queue is one doubly linked list, of exactly the loaders that are marked as queued. -/
structure Chained (s : FileLoaderQueue) (l : List ℕ) : Prop where
  nodup : l.Nodup
  linked : s.nodes.Linked none l none
  start_eq : s.queueStart = l.head?
  end_eq : s.queueEnd = l.getLast?
  inQueue : ∀ x, s.inQueue x ↔ x ∈ l
  alive : ∀ x ∈ l, s.nodes.alive x
  made : ∀ x ∈ l, x < s.made
  unlinked : ∀ x ∉ l, s.nodes.prev x = none ∧ s.nodes.next x = none

theorem Chained.length_lt (h : s.Chained l) : l.length < s.rounds := by
  have hsub : l ⊆ List.range s.made := fun x hx => List.mem_range.mpr (h.made x hx)
  have hle := (List.Nodup.subperm h.nodup hsub).length_le
  rw [List.length_range] at hle
  exact Nat.lt_succ_of_le hle

theorem Chained.follow (h : s.Chained l) (hx : x ∈ l) : s.nodes.follow (some x) = some x :=
  follow_some (h.alive x hx)

/-- A state with the same links and marks. -/
theorem Chained.congr (h : s.Chained l) {t : FileLoaderQueue} (hnodes : t.nodes = s.nodes)
    (hstart : t.queueStart = s.queueStart) (hend : t.queueEnd = s.queueEnd)
    (hqueue : t.inQueue = s.inQueue) (hmade : t.made = s.made) : t.Chained l where
  nodup := h.nodup
  linked := by rw [hnodes]; exact h.linked
  start_eq := hstart.trans h.start_eq
  end_eq := hend.trans h.end_eq
  inQueue := by rw [hqueue]; exact h.inQueue
  alive := by rw [hnodes]; exact h.alive
  made := by rw [hmade]; exact h.made
  unlinked := by rw [hnodes]; exact h.unlinked

/-- What a removal leaves as it is. -/
structure SameLoaders (s t : FileLoaderQueue) : Prop where
  priority : t.priority = s.priority
  currentPriority : t.currentPriority = s.currentPriority
  finished : t.finished = s.finished
  made : t.made = s.made
  alive : t.nodes.alive = s.nodes.alive

theorem SameLoaders.refl (s : FileLoaderQueue) : SameLoaders s s := ⟨rfl, rfl, rfl, rfl, rfl⟩

theorem removeFromQueue_spec (h : s.Chained l) (r : ℕ) : ∃ t, s.removeFromQueue r = some t ∧
    t.Chained (l.erase r) ∧ SameLoaders s t := by
  rw [removeFromQueue]
  by_cases hr : r ∈ l
  · obtain ⟨a, b, rfl⟩ := List.append_of_mem hr
    obtain ⟨ha, hb, hra, hrb, hdisjoint, hnodup⟩ := nodup_parts h.nodup
    obtain ⟨hprev, hnext⟩ := h.linked.at
    have herase : (a ++ r :: b).erase r = a ++ b := by
      rw [List.erase_append_right _ hra, List.erase_cons_head]
    obtain ⟨nodes, hunlink, hlinked, halive, hothers⟩ := unlink_spec h.linked h.nodup h.alive
    have hrab : r ∉ a ++ b := fun hmem => (List.mem_append.mp hmem).elim hra hrb
    rw [if_neg (not_not.mpr ((h.inQueue r).mpr hr)), hunlink, herase]
    refine ⟨_, rfl, ⟨hnodup, (hlinked.setPrev hrab none).setNext hrab none, ?_, ?_, ?_, ?_, ?_, ?_⟩,
      ⟨rfl, rfl, rfl, rfl, halive⟩⟩
    · dsimp only
      rw [h.start_eq, hnext]
      cases a with
      | nil => exact if_pos rfl
      | cons y a => exact if_neg fun heq => hra (by simp [← Option.some.inj heq])
    · dsimp only
      rw [h.end_eq, hprev]
      cases b using List.reverseRecOn with
      | nil => simp
      | append_singleton b y =>
        rw [← List.cons_append, ← List.append_assoc, List.getLast?_concat, ← List.append_assoc,
          List.getLast?_concat]
        exact if_neg fun heq => hrb (by simp [Option.some.inj heq])
    · intro x
      dsimp only
      by_cases hx : x = r
      · rw [hx, Function.update_self]
        exact iff_of_false Bool.false_ne_true hrab
      · rw [Function.update_of_ne hx, h.inQueue]
        simp only [List.mem_append, List.mem_cons]
        tauto
    · intro x hx
      show nodes.alive x
      rw [halive]
      refine h.alive x ?_
      simp only [List.mem_append, List.mem_cons] at hx ⊢
      tauto
    · intro x hx
      refine h.made x ?_
      simp only [List.mem_append, List.mem_cons] at hx ⊢
      tauto
    · intro x hx
      by_cases hxr : x = r
      · rw [hxr]
        exact ⟨Function.update_self .., Function.update_self ..⟩
      · have hout : x ∉ a ++ r :: b := by
          simp only [List.mem_append, List.mem_cons] at hx ⊢
          tauto
        obtain ⟨hp, hn⟩ := h.unlinked x hout
        obtain ⟨hp', hn'⟩ := hothers x hx
        exact ⟨(Function.update_of_ne hxr _ _).trans (hp'.trans hp),
          (Function.update_of_ne hxr _ _).trans (hn'.trans hn)⟩
  · rw [if_pos fun hq => hr ((h.inQueue r).mp hq), List.erase_of_not_mem hr]
    exact ⟨s, rfl, h, SameLoaders.refl s⟩

/-- A loader that is put into the list, once its links are those of the longer list. -/
theorem Chained.insert (h : s.Chained (a ++ b)) (hr : r ∉ a ++ b) (halive : s.nodes.alive r)
    (hmade : r < s.made) {nodes : Nodes ℕ} (hlinked : nodes.Linked none (a ++ r :: b) none)
    (hnodesAlive : nodes.alive = s.nodes.alive)
    (hothers : ∀ y ∉ a ++ r :: b, nodes.prev y = s.nodes.prev y ∧ nodes.next y = s.nodes.next y)
    {start last : Option ℕ} (hstart : start = (a ++ r :: b).head?)
    (hlast : last = (a ++ r :: b).getLast?) :
    Chained { s with
      inQueue := Function.update s.inQueue r true
      nodes := nodes
      queueStart := start
      queueEnd := last } (a ++ r :: b) := by
  have hmem : ∀ y, y ∈ a ++ r :: b ↔ y = r ∨ y ∈ a ++ b := fun y => by
    simp only [List.mem_append, List.mem_cons]
    tauto
  refine ⟨List.nodup_middle.mpr (List.nodup_cons.mpr ⟨hr, h.nodup⟩), hlinked, hstart, hlast,
    fun y => ?_, fun y hy => ?_, fun y hy => ?_, fun y hy => ?_⟩
  · dsimp only
    rw [hmem]
    by_cases hy : y = r
    · rw [hy, Function.update_self]
      exact iff_of_true rfl (.inl rfl)
    · rw [Function.update_of_ne hy, h.inQueue]
      exact ⟨.inr, fun h => h.resolve_left hy⟩
  · show nodes.alive y
    rw [hnodesAlive]
    obtain rfl | hy := (hmem y).mp hy
    · exact halive
    · exact h.alive y hy
  · obtain rfl | hy := (hmem y).mp hy
    · exact hmade
    · exact h.made y hy
  · obtain ⟨hp, hn⟩ := h.unlinked y fun hmemOld => hy ((hmem y).mpr (.inr hmemOld))
    obtain ⟨hp', hn'⟩ := hothers y hy
    exact ⟨hp'.trans hp, hn'.trans hn⟩

theorem place_empty (h : s.Chained []) (halive : s.nodes.alive r) (hmade : r < s.made)
    (neighbour : Neighbour) : ∃ t,
    place r neighbour { s with inQueue := Function.update s.inQueue r true } = some t ∧
      t.Chained [r] ∧ SameLoaders s t := by
  have hstart : s.queueStart = none := h.start_eq
  obtain ⟨hp, hn⟩ := h.unlinked r List.not_mem_nil
  refine ⟨_, if_pos hstart, ?_, ⟨rfl, rfl, rfl, rfl, rfl⟩⟩
  exact h.insert (a := []) List.not_mem_nil halive hmade ⟨hp, hn, trivial⟩ rfl
    (fun _ _ => ⟨rfl, rfl⟩) rfl rfl

theorem place_before (h : s.Chained (a ++ x :: b)) (hr : r ∉ a ++ x :: b) (halive : s.nodes.alive r)
    (hmade : r < s.made) : ∃ t,
    place r (.before (some x)) { s with inQueue := Function.update s.inQueue r true } = some t ∧
      t.Chained (a ++ r :: x :: b) ∧ SameLoaders s t := by
  obtain ⟨nodes, hlink, hlinked, hnodesAlive, hothers⟩ := linkBefore_spec h.linked
    (List.nodup_middle.mpr (List.nodup_cons.mpr ⟨hr, h.nodup⟩)) h.alive
  obtain ⟨first, hfirst⟩ : ∃ first, (a ++ x :: b).head? = some first := by cases a <;> simp
  have hstart : s.queueStart = some first := h.start_eq.trans hfirst
  have hfollow : nodes.follow (some first) = some first := by
    refine follow_some ?_
    rw [hnodesAlive]
    exact h.alive first (List.mem_of_head? hfirst)
  have hnext : some x ≠ s.nodes.next r := by
    rw [(h.unlinked r hr).2]
    exact Option.some_ne_none x
  have hnewStart : (if nodes.prev first = none then some first else nodes.prev first) =
      (a ++ r :: x :: b).head? := by
    cases a with
    | nil =>
      obtain rfl := Option.some.inj hfirst
      have hprev : nodes.prev x = some r := hlinked.2.2.1
      rw [hprev]
      rfl
    | cons y a =>
      obtain rfl := Option.some.inj hfirst
      rw [if_pos hlinked.1]
      rfl
  have hsameEnd : s.queueEnd = (a ++ r :: x :: b).getLast? := by
    rw [h.end_eq, List.getLast?_append_of_ne_nil _ (by simp), List.getLast?_append_of_ne_nil _ (by simp),
      List.getLast?_cons_cons]
  refine ⟨_, ?_, h.insert hr halive hmade hlinked hnodesAlive hothers hnewStart hsameEnd,
    ⟨rfl, rfl, rfl, rfl, hnodesAlive⟩⟩
  rw [place, if_neg (by rw [hstart]; simp)]
  dsimp only
  rw [if_neg hnext, h.follow (by simp), Option.bind_eq_bind, Option.bind_some, hlink,
    Option.bind_eq_bind, Option.bind_some, hstart, hfollow]
  rfl

theorem place_after (h : s.Chained (a ++ x :: b)) (hr : r ∉ a ++ x :: b) (halive : s.nodes.alive r)
    (hmade : r < s.made) : ∃ t,
    place r (.after (some x)) { s with inQueue := Function.update s.inQueue r true } = some t ∧
      t.Chained (a ++ x :: r :: b) ∧ SameLoaders s t := by
  have hsplit : ∀ l : List ℕ, a ++ x :: l = (a ++ [x]) ++ l := fun l => by simp
  have hnodup : (a ++ x :: r :: b).Nodup := by
    rw [hsplit]
    rw [hsplit] at hr
    exact List.nodup_middle.mpr (List.nodup_cons.mpr ⟨hr, hsplit b ▸ h.nodup⟩)
  obtain ⟨nodes, hlink, hlinked, hnodesAlive, hothers⟩ := linkAfter_spec h.linked hnodup h.alive
  obtain ⟨last, hlast⟩ : ∃ last, (a ++ x :: b).getLast? = some last :=
    ⟨_, List.getLast?_eq_some_getLast (by simp)⟩
  have hend : s.queueEnd = some last := h.end_eq.trans hlast
  have hfollow : nodes.follow (some last) = some last := by
    refine follow_some ?_
    rw [hnodesAlive]
    exact h.alive last (List.mem_of_getLast? hlast)
  have hprev : some x ≠ s.nodes.prev r := by
    rw [(h.unlinked r hr).1]
    exact Option.some_ne_none x
  have hstart : ¬s.queueStart = none := by
    rw [h.start_eq]
    cases a <;> simp
  have hnewEnd : (if nodes.next last = none then some last else nodes.next last) =
      (a ++ x :: r :: b).getLast? := by
    cases b using List.reverseRecOn with
    | nil =>
      rw [List.getLast?_concat] at hlast
      obtain rfl := Option.some.inj hlast
      have hnext : nodes.next x = some r := (hlinked.at).2
      rw [hnext, hsplit, List.getLast?_concat]
      rfl
    | append_singleton b y =>
      rw [← List.cons_append, ← List.append_assoc, List.getLast?_concat] at hlast
      obtain rfl := Option.some.inj hlast
      have hnext : nodes.next y = none := by
        have hlinked' : nodes.Linked none ((a ++ x :: r :: b) ++ y :: []) none := by simpa using hlinked
        exact (hlinked'.at).2
      rw [if_pos hnext, ← List.cons_append, ← List.cons_append, ← List.append_assoc,
        List.getLast?_concat]
  have hsameStart : s.queueStart = (a ++ x :: r :: b).head? := by
    rw [h.start_eq]
    cases a <;> rfl
  rw [hsplit] at h hr hlinked hothers hnewEnd hsameStart ⊢
  refine ⟨_, ?_, h.insert hr halive hmade hlinked hnodesAlive hothers hsameStart hnewEnd,
    ⟨rfl, rfl, rfl, rfl, hnodesAlive⟩⟩
  rw [place, if_neg hstart]
  dsimp only
  rw [if_neg hprev, h.follow (by simp), Option.bind_eq_bind, Option.bind_some, hlink,
    Option.bind_eq_bind, Option.bind_some, hend, hfollow]
  rfl

end FileLoaderQueue

end Bettergram.Storage
