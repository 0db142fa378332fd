import Bettergram.Storage.FileLoaderQueue

/-! # Starting a loader

The neighbour of a started loader is another loader of the queue, and next to
it the loader keeps those of the current priority in front.
-/

namespace Bettergram.Storage
open Foundation Foundation.Nodes

variable {s : FileLoaderQueue} {l a b : List ℕ} {r x : ℕ}

namespace FileLoaderQueue

/-- The loaders of the current priority come before the others. -/
def CurrentFirst (s : FileLoaderQueue) (l : List ℕ) : Prop :=
  l.Pairwise fun x y => s.priority y = s.currentPriority → s.priority x = s.currentPriority

theorem CurrentFirst.sublist {l' : List ℕ} (h : s.CurrentFirst l) (hsub : l'.Sublist l) :
    s.CurrentFirst l' :=
  List.Pairwise.sublist hsub h

/-- Only the priorities of the listed loaders matter. -/
theorem CurrentFirst.congr {t : FileLoaderQueue} (h : s.CurrentFirst l)
    (hcurrent : t.currentPriority = s.currentPriority) (hpriority : ∀ x ∈ l, t.priority x = s.priority x) :
    t.CurrentFirst l := by
  refine List.Pairwise.imp_of_mem ?_ (show l.Pairwise _ from h)
  intro x y hx hy hxy
  rw [hcurrent, hpriority x hx, hpriority y hy]
  exact hxy

theorem CurrentFirst.insert (h : s.CurrentFirst (a ++ b))
    (hbefore : s.priority r = s.currentPriority → ∀ x ∈ a, s.priority x = s.currentPriority)
    (hbehind : ∀ x ∈ b, s.priority x = s.currentPriority → s.priority r = s.currentPriority) :
    s.CurrentFirst (a ++ r :: b) := by
  obtain ⟨ha, hb, hab⟩ := List.pairwise_append.mp h
  refine List.pairwise_append.mpr ⟨ha, List.pairwise_cons.mpr ⟨hbehind, hb⟩, fun x hx y hy => ?_⟩
  rcases List.mem_cons.mp hy with rfl | hy
  · exact fun hr => hbefore hr x hx
  · exact hab x hx y hy

/-- What is in front of a loader of the current priority is of it too. -/
theorem CurrentFirst.before (h : s.CurrentFirst (a ++ x :: b)) (hx : s.priority x = s.currentPriority) :
    ∀ y ∈ a, s.priority y = s.currentPriority := fun y hy =>
  (List.pairwise_append.mp h).2.2 y hy x List.mem_cons_self hx

/-- What is behind a loader of another priority is not of the current one either. -/
theorem CurrentFirst.behind (h : s.CurrentFirst (a ++ x :: b)) (hx : s.priority x ≠ s.currentPriority) :
    ∀ y ∈ b, s.priority y ≠ s.currentPriority := fun y hy hcurrent =>
  hx ((List.pairwise_cons.mp (List.pairwise_append.mp h).2.1).1 y hy hcurrent)

theorem lastCurrent_spec (h : s.Chained (a ++ x :: b)) : ∃ m b' last, b = m ++ b' ∧
    (∀ y ∈ m, s.priority y = s.currentPriority) ∧ s.lastCurrent x = some last ∧
      (x :: m).getLast? = some last := by
  have hrounds : b.length < s.rounds := by
    have := h.length_lt
    rw [List.length_append, List.length_cons] at this
    omega
  have hlist : a ++ x :: b = a ++ x :: (b ++ []) := by rw [List.append_nil]
  obtain ⟨m, b', rfl, hm, -, hwalk⟩ := walk_next (fun x => s.priority x = s.currentPriority)
    (hlist ▸ h.linked) (hlist ▸ h.nodup) (hlist ▸ h.alive) hrounds
  obtain ⟨last, hlast⟩ : ∃ last, (x :: m).getLast? = some last :=
    ⟨_, List.getLast?_eq_some_getLast (by simp)⟩
  exact ⟨m, b', last, rfl, fun y hy => by simpa using hm y hy, hwalk.trans hlast, hlast⟩

theorem backWhile_spec (h : s.Chained (a ++ x :: b)) (test : ℤ → Bool) : ∃ a' m first, a = a' ++ m ∧
    (∀ y ∈ m, test (s.priority y)) ∧ (∀ y ∈ a'.getLast?, test (s.priority y) = false) ∧
      s.backWhile test x = some first ∧ (m ++ [x]).head? = some first := by
  have hrounds : a.length < s.rounds := by
    have := h.length_lt
    rw [List.length_append, List.length_cons] at this
    omega
  obtain ⟨a', m, rfl, hm, ha', hwalk⟩ := walk_prev (fun x => test (s.priority x)) h.linked h.alive
    hrounds
  obtain ⟨first, hfirst⟩ : ∃ first, (m ++ [x]).head? = some first := by cases m <;> simp
  exact ⟨a', m, first, rfl, hm, ha', hwalk.trans hfirst, hfirst⟩

/-- A neighbour next to which a loader of the list, or a new one, keeps the order. -/
inductive Suits (s : FileLoaderQueue) (l : List ℕ) (r : ℕ) : Neighbour → Prop
  | stay (hr : r ∈ l) (h : s.CurrentFirst l) : Suits s l r .stay
  | empty {neighbour : Neighbour} (hl : l = []) (hne : neighbour ≠ .stay) : Suits s l r neighbour
  | before {a b : List ℕ} {x : ℕ} (hl : l.erase r = a ++ x :: b) (h : s.CurrentFirst (a ++ r :: x :: b)) :
    Suits s l r (.before (some x))
  | after {a b : List ℕ} {x : ℕ} (hl : l.erase r = a ++ x :: b) (h : s.CurrentFirst (a ++ x :: r :: b)) :
    Suits s l r (.after (some x))

theorem erase_middle (h : (a ++ r :: b).Nodup) : (a ++ r :: b).erase r = a ++ b := by
  rw [List.erase_append_right _ (nodup_parts h).2.2.1, List.erase_cons_head]

/-- Behind a loader with only loaders of the current priority before it, and itself of it. -/
theorem Suits.behind_current (hr : s.priority r = s.currentPriority) {c : List ℕ} {last : ℕ}
    (hl : l.erase r = c ++ b) (hlast : c.getLast? = some last)
    (h : s.CurrentFirst (l.erase r)) (hc : ∀ y ∈ c, s.priority y = s.currentPriority) :
    Suits s l r (.after (some last)) := by
  obtain ⟨c, rfl⟩ := List.getLast?_eq_some_iff.mp hlast
  rw [hl] at h
  refine .after (a := c) (b := b) (by rw [hl]; simp) ?_
  have := h.insert (r := r) (fun _ => hc) fun _ _ _ => hr
  simpa using this

/-- In front of all loaders of another priority. -/
theorem Suits.front_of_others {c m : List ℕ} {first : ℕ} (hl : l.erase r = c ++ m ++ b)
    (hfirst : m.head? = some first) (h : s.CurrentFirst (l.erase r))
    (hc : ∀ y ∈ c, s.priority y = s.currentPriority) (hm : ∀ y ∈ m, s.priority y ≠ s.currentPriority) :
    Suits s l r (.before (some first)) := by
  obtain ⟨m, rfl⟩ := List.head?_eq_some_iff.mp hfirst
  rw [hl] at h
  have hb : ∀ y ∈ m ++ b, s.priority y ≠ s.currentPriority := by
    have h' : s.CurrentFirst (c ++ first :: (m ++ b)) := by simpa using h
    exact h'.behind (hm first List.mem_cons_self)
  refine .before (a := c) (b := m ++ b) (by rw [hl]; simp) ?_
  have h' : s.CurrentFirst (c ++ first :: (m ++ b)) := by simpa using h
  refine h'.insert (fun _ => hc) fun y hy hcurrent => ?_
  rcases List.mem_cons.mp hy with rfl | hy
  · exact absurd hcurrent (hm y List.mem_cons_self)
  · exact absurd hcurrent (hb y hy)

/-- In front of the whole list. -/
theorem Suits.front (hr : s.priority r = s.currentPriority) {first : ℕ}
    (hfirst : (l.erase r).head? = some first) (h : s.CurrentFirst (l.erase r)) :
    Suits s l r (.before (some first)) := by
  obtain ⟨b, hb⟩ := List.head?_eq_some_iff.mp hfirst
  refine .before (a := []) hb ?_
  rw [hb] at h
  exact h.insert (a := []) (by simp) fun _ _ _ => hr

/-- Going on from a loader of the current priority ends at a suitable neighbour. -/
theorem lastCurrent_suits (h : s.Chained (a ++ x :: b)) (hr : s.priority r = s.currentPriority)
    (hx : s.priority x = s.currentPriority) {c : List ℕ} (hl : l.erase r = c ++ x :: b)
    (hrest : s.CurrentFirst (l.erase r)) :
    ∃ last, s.lastCurrent x = some last ∧ Suits s l r (.after (some last)) := by
  obtain ⟨m, b', last, rfl, hm, hlast, hget⟩ := lastCurrent_spec h
  refine ⟨last, hlast, .behind_current (c := c ++ x :: m) (b := b') hr (by rw [hl]; simp) ?_ hrest
    fun y hy => ?_⟩
  · rw [List.getLast?_append_of_ne_nil _ (by simp), hget]
  · rcases List.mem_append.mp hy with hy | hy
    · rw [hl] at hrest
      exact hrest.before hx y hy
    · rcases List.mem_cons.mp hy with rfl | hy
      · exact hx
      · exact hm y hy

/-- Going back from a loader of another priority ends at a suitable neighbour. -/
theorem backWhile_suits (h : s.Chained (a ++ x :: b)) (test : ℤ → Bool)
    (htest : ∀ y, test (s.priority y) ↔ s.priority y ≠ s.currentPriority)
    (hx : s.priority x ≠ s.currentPriority) {c : List ℕ} (hl : l.erase r = a ++ x :: c)
    (hrest : s.CurrentFirst (l.erase r)) :
    ∃ first, s.backWhile test x = some first ∧ Suits s l r (.before (some first)) := by
  obtain ⟨a', m, first, rfl, hm, ha', hback, hget⟩ := backWhile_spec h test
  refine ⟨first, hback, .front_of_others (c := a') (b := c) (by rw [hl]; simp) hget hrest
    (fun y hy => ?_) fun y hy => ?_⟩
  · obtain ⟨z, hz⟩ : ∃ z, a'.getLast? = some z := by
      cases hnil : a'.getLast? with
      | none =>
        rw [List.getLast?_eq_none_iff.mp hnil] at hy
        exact absurd hy List.not_mem_nil
      | some z => exact ⟨z, rfl⟩
    have hzcurrent : s.priority z = s.currentPriority := by
      by_contra hne
      have := ha' z hz
      rw [(htest z).mpr hne] at this
      cases this
    obtain ⟨a'', rfl⟩ := List.getLast?_eq_some_iff.mp hz
    rw [hl, show a'' ++ [z] ++ m ++ x :: c = a'' ++ z :: (m ++ x :: c) by simp] at hrest
    rcases List.mem_append.mp hy with hy | hy
    · exact hrest.before hzcurrent y hy
    · rw [List.mem_singleton.mp hy]
      exact hzcurrent
  · rcases List.mem_append.mp hy with hy | hy
    · exact (htest y).mp (hm y hy)
    · rw [List.mem_singleton.mp hy]
      exact hx

theorem priorityIs_some (h : s.Chained l) (hx : x ∈ l) (test : ℤ → Bool) :
    s.priorityIs (some x) test = some (test (s.priority x)) := by
  rw [priorityIs, h.follow hx]
  rfl

/-- A queued loader that is not the first has the start of the queue before it. -/
theorem Chained.start_of_prev (h : s.Chained (a ++ r :: b)) (ha : a.getLast? ≠ none) :
    ∃ first, s.queueStart = some first ∧ (a ++ b).head? = some first := by
  rw [h.start_eq]
  cases a with
  | nil => exact absurd rfl ha
  | cons f a => exact ⟨f, rfl, rfl⟩

theorem neighbourOfCurrent_spec (h : s.Chained (a ++ r :: b)) (hfirst : s.CurrentFirst (a ++ r :: b))
    (hle : ∀ x, s.priority x ≤ s.currentPriority) (hr : s.priority r = s.currentPriority)
    (loadFirst : Bool) :
    ∃ n, s.neighbourOfCurrent r loadFirst = some n ∧ Suits s (a ++ r :: b) r n := by
  have herase := erase_middle h.nodup
  have hrest : s.CurrentFirst ((a ++ r :: b).erase r) := hfirst.sublist List.erase_sublist
  obtain ⟨hprev, hnext⟩ := h.linked.at
  rw [neighbourOfCurrent, hprev, hnext]
  split_ifs with hload hnone
  · exact ⟨_, rfl, .stay (by simp) hfirst⟩
  · obtain ⟨first, hstart, hhead⟩ := h.start_of_prev hnone
    rw [hstart]
    exact ⟨_, rfl, .front hr (by rw [herase, hhead]) hrest⟩
  · cases b with
    | nil => exact ⟨_, rfl, .stay (by simp) hfirst⟩
    | cons y b =>
      have hy : y ∈ a ++ r :: y :: b := by simp
      have hsplit : a ++ r :: y :: b = (a ++ [r]) ++ y :: b := by simp
      rw [List.head?_cons, priorityIs_some h hy, Option.bind_eq_bind, Option.bind_some]
      by_cases hlower : s.priority y < s.currentPriority
      · rw [if_pos (.inr (by simpa using hlower))]
        exact ⟨_, rfl, .stay (by simp) hfirst⟩
      · obtain ⟨last, hlast, hsuits⟩ := lastCurrent_suits (hsplit ▸ h) hr
          (le_antisymm (hle y) (not_lt.mp hlower)) herase hrest
        rw [if_neg (by simpa using hlower), h.follow hy, Option.bind_eq_bind, Option.bind_some, hlast]
        exact ⟨_, rfl, hsuits⟩

theorem neighbourOfRaised_queued (h : s.Chained (a ++ r :: b))
    (hrest : s.CurrentFirst ((a ++ r :: b).erase r)) (hle : ∀ x, s.priority x ≤ s.currentPriority)
    (hr : s.priority r = s.currentPriority) (loadFirst : Bool) :
    ∃ n, s.neighbourOfRaised r loadFirst = some n ∧ Suits s (a ++ r :: b) r n := by
  have hqueue : s.inQueue r := (h.inQueue r).mpr (by simp)
  have herase := erase_middle h.nodup
  obtain ⟨hprev, hnext⟩ := h.linked.at
  have hordered := hrest
  rw [herase] at hordered
  rw [neighbourOfRaised, hprev, hnext]
  split_ifs with hload hstay
  · refine ⟨_, rfl, .stay (by simp) (hordered.insert ?_ fun _ _ _ => hr)⟩
    simp [List.getLast?_eq_none_iff.mp hstay.2]
  · obtain ⟨first, hstart, hhead⟩ := h.start_of_prev fun hnone => hstay ⟨hqueue, hnone⟩
    rw [hstart]
    exact ⟨_, rfl, .front hr (by rw [herase, hhead]) hrest⟩
  · obtain ⟨nextCurrent, hnextIs, hnextCurrent⟩ : ∃ nextCurrent,
        s.priorityIs b.head? (fun p => p = s.currentPriority) = some nextCurrent ∧
        (nextCurrent → ∃ y b', b = y :: b' ∧ s.priority y = s.currentPriority) := by
      cases b with
      | nil => exact ⟨false, rfl, by simp⟩
      | cons y b =>
        refine ⟨_, priorityIs_some h (by simp) _, fun hy => ⟨y, b, rfl, by simpa using hy⟩⟩
    obtain ⟨prevLower, hprevIs, hprevLower⟩ : ∃ prevLower,
        s.priorityIs a.getLast? (fun p => p < s.currentPriority) = some prevLower ∧
        (∀ y, a.getLast? = some y → (prevLower ↔ s.priority y < s.currentPriority)) ∧
        (prevLower → a.getLast? ≠ none) := by
      cases hlast : a.getLast? with
      | none => exact ⟨false, rfl, by simp, by simp⟩
      | some y =>
        have hy : y ∈ a ++ r :: b := List.mem_append_left _ (List.mem_of_getLast? hlast)
        refine ⟨_, priorityIs_some h hy _, fun z hz => ?_, by simp⟩
        obtain rfl := Option.some.inj hz
        exact decide_eq_true_iff
    rw [hnextIs, Option.bind_eq_bind, Option.bind_some]
    split_ifs with hc
    · obtain ⟨y, b', rfl, hy⟩ := hnextCurrent hc
      have hsplit : a ++ r :: y :: b' = (a ++ [r]) ++ y :: b' := by simp
      obtain ⟨last, hlast, hsuits⟩ := lastCurrent_suits (hsplit ▸ h) hr hy herase hrest
      rw [List.head?_cons, h.follow (by simp), Option.bind_eq_bind, Option.bind_some, hlast]
      exact ⟨_, rfl, hsuits⟩
    · rw [hprevIs, Option.bind_some]
      split_ifs with hlower
      · obtain ⟨y, hy⟩ := Option.ne_none_iff_exists'.mp (hprevLower.2 hlower)
        obtain ⟨a, rfl⟩ := List.getLast?_eq_some_iff.mp hy
        have hsplit : a ++ [y] ++ r :: b = a ++ y :: (r :: b) := by simp
        have hylower : s.priority y < s.currentPriority := (hprevLower.1 y hy).mp hlower
        obtain ⟨first, hback, hsuits⟩ := backWhile_suits (c := b) (hsplit ▸ h)
          (fun p => p < s.currentPriority) (fun z => by rw [decide_eq_true_eq]; exact (hle z).lt_iff_ne) hylower.ne
          (by rw [herase]; simp) hrest
        rw [hy, h.follow (by simp), Option.bind_eq_bind, Option.bind_some, hback]
        exact ⟨_, rfl, hsuits⟩
      · refine ⟨_, rfl, .stay (by simp) (hordered.insert (fun _ => ?_) fun _ _ _ => hr)⟩
        intro z hz
        obtain ⟨y, hy⟩ : ∃ y, a.getLast? = some y :=
          ⟨_, List.getLast?_eq_some_getLast (List.ne_nil_of_mem hz)⟩
        have hycurrent : s.priority y = s.currentPriority :=
          le_antisymm (hle y) (not_lt.mp fun hlt => hlower ((hprevLower.1 y hy).mpr hlt))
        obtain ⟨a, rfl⟩ := List.getLast?_eq_some_iff.mp hy
        rcases List.mem_append.mp hz with hz | hz
        · have hordered' : s.CurrentFirst (a ++ y :: b) := by simpa using hordered
          exact hordered'.before hycurrent z hz
        · rw [List.mem_singleton.mp hz]
          exact hycurrent

/-- A loader that is not queued goes in front of the queue, or nowhere in an empty one. -/
theorem front_suits (h : s.Chained l) (hrest : s.CurrentFirst l) (hmem : r ∉ l)
    (hr : s.priority r = s.currentPriority) : Suits s l r (.before s.queueStart) := by
  have herase : l.erase r = l := List.erase_of_not_mem hmem
  rw [h.start_eq]
  cases l with
  | nil => exact .empty rfl nofun
  | cons first l => exact .front hr (by rw [herase]; rfl) (herase.symm ▸ hrest)

theorem neighbourOfRaised_new (h : s.Chained l) (hrest : s.CurrentFirst l) (hmem : r ∉ l)
    (hr : s.priority r = s.currentPriority) (loadFirst : Bool) :
    ∃ n, s.neighbourOfRaised r loadFirst = some n ∧ Suits s l r n := by
  have hqueue : ¬s.inQueue r := fun hq => hmem ((h.inQueue r).mp hq)
  have herase : l.erase r = l := List.erase_of_not_mem hmem
  rw [neighbourOfRaised]
  split_ifs with hload hstay
  · exact absurd hstay.1 hqueue
  · exact ⟨_, rfl, front_suits h hrest hmem hr⟩
  · cases l with
    | nil =>
      have hstart : s.queueStart = none := h.start_eq
      rw [hstart]
      exact ⟨_, rfl, .empty rfl nofun⟩
    | cons y l =>
      have hstart : s.queueStart = some y := h.start_eq
      rw [hstart, priorityIs_some h (by simp), Option.bind_eq_bind, Option.bind_some]
      by_cases hy : s.priority y = s.currentPriority
      · obtain ⟨last, hlast, hsuits⟩ := lastCurrent_suits (a := []) h hr hy (c := []) herase
          (herase.symm ▸ hrest)
        rw [if_pos (by simpa using hy), h.follow (by simp), Option.bind_eq_bind, Option.bind_some, hlast]
        exact ⟨_, rfl, hsuits⟩
      · rw [if_neg (by simpa using hy), ← hstart]
        exact ⟨_, rfl, front_suits h hrest hmem hr⟩

/-- A loader goes behind the queue when it has another priority, or all others the current one. -/
theorem end_suits (h : s.Chained l) (hfirst : s.CurrentFirst l) (hend : s.queueEnd ≠ some r)
    (hfits : s.priority r = s.currentPriority →
      ∀ y ∈ s.queueEnd, s.priority y = s.currentPriority) : Suits s l r (.after s.queueEnd) := by
  rw [h.end_eq] at hend hfits ⊢
  cases l using List.reverseRecOn with
  | nil => exact .empty rfl nofun
  | append_singleton l last =>
    rw [List.getLast?_concat] at hend hfits ⊢
    have hne : last ≠ r := fun heq => hend (congrArg some heq)
    have herase : (l ++ [last]).erase r = l.erase r ++ [last] := by
      by_cases hr : r ∈ l
      · rw [List.erase_append_left _ hr]
      · rw [List.erase_append_right _ hr, List.erase_of_not_mem hr,
          List.erase_of_not_mem fun hmem => hne (List.mem_singleton.mp hmem).symm]
    have hrest : s.CurrentFirst (l.erase r ++ [last]) := herase ▸ hfirst.sublist List.erase_sublist
    refine .after (b := []) herase ?_
    have hlast : s.CurrentFirst ((l.erase r ++ [last]) ++ r :: []) := by
      refine CurrentFirst.insert (by rwa [List.append_nil]) (fun hr y hy => ?_) (by simp)
      have hcurrent := hfits hr last rfl
      rcases List.mem_append.mp hy with hy | hy
      · exact hrest.before hcurrent y hy
      · rw [List.mem_singleton.mp hy]
        exact hcurrent
    simpa using hlast

theorem neighbourOfOther_spec (h : s.Chained l) (hfirst : s.CurrentFirst l) (loadFirst : Bool)
    (hqueued : loadFirst → s.inQueue r)
    (hfits : loadFirst = false → s.priority r = s.currentPriority →
      ∀ y ∈ s.queueEnd, s.priority y = s.currentPriority) :
    ∃ n, s.neighbourOfOther r loadFirst = some n ∧ Suits s l r n := by
  rw [neighbourOfOther]
  split_ifs with hload hstay
  · have hmem : r ∈ l := (h.inQueue r).mp (hqueued hload)
    obtain ⟨a, b, rfl⟩ := List.append_of_mem hmem
    obtain ⟨hprev, -⟩ := h.linked.at
    have herase := erase_middle h.nodup
    have hrest : s.CurrentFirst ((a ++ r :: b).erase r) := hfirst.sublist List.erase_sublist
    rw [hprev]
    cases a using List.reverseRecOn with
    | nil =>
      rw [List.getLast?_nil]
      dsimp only [priorityIs]
      rw [Option.bind_eq_bind, Option.bind_some, if_pos ⟨hqueued hload, .inl rfl⟩]
      exact ⟨_, rfl, .stay hmem hfirst⟩
    | append_singleton a y =>
      have hy : y ∈ a ++ [y] ++ r :: b := by simp
      rw [List.getLast?_concat, priorityIs_some h hy, Option.bind_eq_bind, Option.bind_some]
      by_cases hycurrent : s.priority y = s.currentPriority
      · rw [if_pos ⟨hqueued hload, .inr (by simpa using hycurrent)⟩]
        exact ⟨_, rfl, .stay hmem hfirst⟩
      · have hsplit : a ++ [y] ++ r :: b = a ++ y :: (r :: b) := by simp
        obtain ⟨first, hback, hsuits⟩ := backWhile_suits (c := b) (hsplit ▸ h)
          (fun p => p ≠ s.currentPriority) (fun z => decide_eq_true_iff) hycurrent
          (by rw [herase]; simp) hrest
        rw [if_neg (by simp [hycurrent]), h.follow hy, Option.bind_eq_bind, Option.bind_some, hback]
        exact ⟨_, rfl, hsuits⟩
  · exact ⟨_, rfl, .stay ((h.inQueue r).mp hstay.1) hfirst⟩
  · refine ⟨_, rfl, end_suits h hfirst (fun hend => hstay ?_) (hfits (by simpa using hload))⟩
    rw [h.end_eq, List.getLast?_eq_some_iff] at hend
    obtain ⟨a, rfl⟩ := hend
    exact ⟨(h.inQueue r).mpr (by simp), (h.linked.at).2⟩

/-! ## The loader in its place -/

/-- The queue, with the loaders of the current priority in front. -/
structure WellFormed (s : FileLoaderQueue) (l : List ℕ) : Prop extends s.Chained l where
  currentFirst : s.CurrentFirst l
  priority_le : ∀ x, s.priority x ≤ s.currentPriority
  alive_lt : ∀ x, s.nodes.alive x → x < s.made

/-- The condition of a start that comes to the queue: not first without priority when it is not
queued, and behind the queue only with another priority, or when the queue's end has the current. -/
def FitsStart (r : ℕ) (loadFirst prior : Bool) (s : FileLoaderQueue) : Prop :=
  prior ∨ if loadFirst then s.inQueue r else s.priority r = s.currentPriority →
    s.queueEnd.all fun y => s.priority y = s.currentPriority

instance (r : ℕ) (loadFirst prior : Bool) (s : FileLoaderQueue) :
    Decidable (s.FitsStart r loadFirst prior) := by
  unfold FitsStart
  infer_instance

/-- A removed loader is put next to a suitable neighbour. -/
theorem place_suits (h : s.Chained l) (halive : s.nodes.alive r) (hmade : r < s.made) {n : Neighbour}
    (hsuits : Suits s l r n) (hn : n ≠ .stay) : ∃ t l', (do
      let t ← s.removeFromQueue r
      place r n { t with inQueue := Function.update t.inQueue r true }) = some t ∧
      t.Chained l' ∧ SameLoaders s t ∧ s.CurrentFirst l' ∧ l'.Perm (r :: l.erase r) := by
  obtain ⟨t, hremove, ht, hsame⟩ := removeFromQueue_spec h r
  have halive' : t.nodes.alive r := by rw [hsame.alive]; exact halive
  have hmade' : r < t.made := by rw [hsame.made]; exact hmade
  have hr : r ∉ l.erase r := fun hmem => (List.Nodup.mem_erase_iff h.nodup).mp hmem |>.1 rfl
  rw [hremove, Option.bind_eq_bind, Option.bind_some]
  have htrans : ∀ {u : FileLoaderQueue}, SameLoaders t u → SameLoaders s u := fun hu =>
    ⟨hu.priority.trans hsame.priority, hu.currentPriority.trans hsame.currentPriority,
      hu.finished.trans hsame.finished, hu.made.trans hsame.made, hu.alive.trans hsame.alive⟩
  cases hsuits with
  | stay => exact absurd rfl hn
  | empty hl _ =>
    subst hl
    obtain ⟨u, hplace, hu, hsameu⟩ := place_empty ht halive' hmade' n
    exact ⟨u, [r], hplace, hu, htrans hsameu, List.pairwise_singleton .., List.Perm.refl _⟩
  | before hl hfirst =>
    rw [hl] at ht hr ⊢
    obtain ⟨u, hplace, hu, hsameu⟩ := place_before ht hr halive' hmade'
    exact ⟨u, _, hplace, hu, htrans hsameu, hfirst, List.perm_middle⟩
  | @after a b x hl hfirst =>
    rw [hl] at ht hr ⊢
    obtain ⟨u, hplace, hu, hsameu⟩ := place_after ht hr halive' hmade'
    have hsplit : ∀ l : List ℕ, a ++ x :: l = (a ++ [x]) ++ l := fun l => by simp
    refine ⟨u, _, hplace, hu, htrans hsameu, hfirst, ?_⟩
    rw [hsplit b, hsplit (r :: b)]
    exact List.perm_middle

/-- The neighbour that `enqueue` chooses, and the state it is chosen in. -/
theorem neighbour_spec (h : s.WellFormed l) {loadFirst prior : Bool}
    (hfits : s.FitsStart r loadFirst prior) : ∃ t n, t.Chained l ∧ Suits t l r n ∧
      t.currentPriority = s.currentPriority ∧ (∀ x, t.priority x ≤ t.currentPriority) ∧
      t.finished = s.finished ∧ t.made = s.made ∧ t.nodes.alive = s.nodes.alive ∧
      s.enqueue r loadFirst prior = t.settle r n := by
  cases prior with
  | false =>
    rw [FitsStart] at hfits
    obtain ⟨n, hn, hsuits⟩ := neighbourOfOther_spec (r := r) h.toChained h.currentFirst loadFirst
      (fun hload => by simpa [hload] using hfits) fun hload hcurrent y hy => by
        have hall : s.queueEnd.all (fun y => s.priority y = s.currentPriority) := by
          simpa [hload, hcurrent] using hfits
        rw [hy] at hall
        simpa using hall
    refine ⟨s, n, h.toChained, hsuits, rfl, h.priority_le, rfl, rfl, rfl, ?_⟩
    rw [enqueue, if_pos (by simp), hn]
    rfl
  | true =>
    by_cases hcurrent : s.inQueue r ∧ s.priority r = s.currentPriority
    · obtain ⟨a, b, rfl⟩ := List.append_of_mem ((h.inQueue r).mp hcurrent.1)
      obtain ⟨n, hn, hsuits⟩ := neighbourOfCurrent_spec h.toChained h.currentFirst h.priority_le
        hcurrent.2 loadFirst
      refine ⟨s, n, h.toChained, hsuits, rfl, h.priority_le, rfl, rfl, rfl, ?_⟩
      rw [enqueue, if_neg (by simp), if_pos hcurrent, hn]
      rfl
    · obtain ⟨t, ht⟩ : ∃ t, t = { s with
        priority := Function.update s.priority r s.currentPriority } := ⟨_, rfl⟩
      have hchained : t.Chained l := h.toChained.congr (by rw [ht]) (by rw [ht]) (by rw [ht])
        (by rw [ht]) (by rw [ht])
      have hcurrentPriority : t.currentPriority = s.currentPriority := by rw [ht]
      have hr : t.priority r = t.currentPriority := by
        rw [ht]
        exact Function.update_self ..
      have hothers : ∀ x, x ≠ r → t.priority x = s.priority x := fun x hx => by
        rw [ht]
        exact Function.update_of_ne hx _ _
      have hle : ∀ x, t.priority x ≤ t.currentPriority := fun x => by
        by_cases hx : x = r
        · rw [hx, hr]
        · rw [hothers x hx, hcurrentPriority]
          exact h.priority_le x
      have hrest : t.CurrentFirst (l.erase r) :=
        (h.currentFirst.sublist List.erase_sublist).congr hcurrentPriority fun x hx =>
          hothers x ((List.Nodup.mem_erase_iff h.nodup).mp hx).1
      obtain ⟨n, hn, hsuits⟩ : ∃ n, t.neighbourOfRaised r loadFirst = some n ∧ Suits t l r n := by
        by_cases hmem : r ∈ l
        · obtain ⟨a, b, rfl⟩ := List.append_of_mem hmem
          exact neighbourOfRaised_queued hchained hrest hle hr loadFirst
        · rw [List.erase_of_not_mem hmem] at hrest
          exact neighbourOfRaised_new hchained hrest hmem hr loadFirst
      refine ⟨t, n, hchained, hsuits, hcurrentPriority, hle, by rw [ht], by rw [ht], by rw [ht], ?_⟩
      rw [enqueue, if_neg (by simp), if_neg hcurrent]
      dsimp only
      rw [← ht, hn]
      rfl

theorem enqueue_spec (h : s.WellFormed l) {loadFirst prior : Bool}
    (hfits : s.FitsStart r loadFirst prior) (halive : s.nodes.alive r) : ∃ t l',
    s.enqueue r loadFirst prior = some t ∧ t.WellFormed l' ∧ (∀ x, x ∈ l' ↔ x = r ∨ x ∈ l) ∧
      t.finished = s.finished := by
  obtain ⟨t, n, ht, hsuits, hcurrent, hle, hfinished, hmade, hsameAlive, henqueue⟩ :=
    neighbour_spec h hfits
  rw [henqueue]
  by_cases hn : n = .stay
  · subst hn
    cases hsuits with
    | stay hr hfirst =>
      refine ⟨t, l, rfl, ⟨ht, hfirst, hle, ?_⟩, fun x => ⟨.inr, ?_⟩, hfinished⟩
      · rw [hsameAlive, hmade]
        exact h.alive_lt
      · rintro (rfl | hx)
        · exact hr
        · exact hx
    | empty hl hne => exact absurd rfl hne
  · obtain ⟨u, l', hplace, hu, hsame, hfirst, hperm⟩ := place_suits ht (by rw [hsameAlive]; exact halive)
      (by rw [hmade]; exact h.alive_lt r halive) hsuits hn
    refine ⟨u, l', ?_, ⟨hu, ?_, ?_, ?_⟩, fun x => ?_, hsame.finished.trans hfinished⟩
    · rw [← hplace]
      cases n with
      | stay => exact absurd rfl hn
      | before x => rfl
      | after x => rfl
    · exact hfirst.congr hsame.currentPriority fun x _ => by rw [hsame.priority]
    · rw [hsame.priority, hsame.currentPriority]
      exact hle
    · rw [hsame.alive, hsame.made, hsameAlive, hmade]
      exact h.alive_lt
    · rw [hperm.mem_iff, List.mem_cons, List.Nodup.mem_erase_iff ht.nodup]
      by_cases hx : x = r
      · exact iff_of_true (.inl hx) (.inl hx)
      · exact or_congr_right ⟨fun hmem => hmem.2, fun hmem => ⟨hx, hmem⟩⟩

end FileLoaderQueue

end Bettergram.Storage
