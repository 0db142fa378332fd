import Bettergram.Storage.FileLoaderQueueStart

/-! # Runs of the queue

The queue stays well formed over every run in which no loader is started first
without priority before it is queued, and none with the current priority
without it behind loaders of another one.
-/

namespace Bettergram.Storage
open Foundation Foundation.Nodes

variable {s : FileLoaderQueue} {l : List ℕ} {r : ℕ}

namespace FileLoaderQueue

inductive Event
  | create
  | start (r : ℕ) (loadFirst prior : Bool) (conditions : StartConditions)
  | pause (r : ℕ)
  | cancel (r : ℕ)
  | finish (r : ℕ)
  | destroy (r : ℕ)
  | clearPriorities

def step : Event → FileLoaderQueue → Option FileLoaderQueue
  | .create, s => some s.create
  | .start r loadFirst prior conditions, s => s.start r loadFirst prior conditions
  | .pause r, s => s.pause r
  | .cancel r, s => s.cancel r
  | .finish r, s => s.finish r
  | .destroy r, s => s.destroy r
  | .clearPriorities, s => some s.clearPriorities

def run : List Event → FileLoaderQueue → Option FileLoaderQueue
  | [], s => some s
  | event :: events, s => (s.step event).bind (run events)

/-- The loader of a call is there. -/
def Allowed : Event → FileLoaderQueue → Prop
  | .start r _ _ _, s => s.nodes.alive r
  | .pause r, s => s.nodes.alive r
  | .cancel r, s => s.nodes.alive r
  | .finish r, s => s.nodes.alive r
  | .destroy r, s => s.nodes.alive r
  | _, _ => True

/-- A start that comes to the queue fits it. -/
def Fits : Event → FileLoaderQueue → Prop
  | .start r loadFirst prior conditions, s =>
    s.reachesQueue r conditions → s.FitsStart r loadFirst prior
  | _, _ => True

instance : (event : Event) → (s : FileLoaderQueue) → Decidable (s.Allowed event)
  | .start _ _ _ _, _ => inferInstanceAs (Decidable (_ = _))
  | .pause _, _ => inferInstanceAs (Decidable (_ = _))
  | .cancel _, _ => inferInstanceAs (Decidable (_ = _))
  | .finish _, _ => inferInstanceAs (Decidable (_ = _))
  | .destroy _, _ => inferInstanceAs (Decidable (_ = _))
  | .create, _ => inferInstanceAs (Decidable True)
  | .clearPriorities, _ => inferInstanceAs (Decidable True)

instance : (event : Event) → (s : FileLoaderQueue) → Decidable (s.Fits event)
  | .start _ _ _ _, _ => inferInstanceAs (Decidable (_ → FitsStart _ _ _ _))
  | .create, _ => inferInstanceAs (Decidable True)
  | .pause _, _ => inferInstanceAs (Decidable True)
  | .cancel _, _ => inferInstanceAs (Decidable True)
  | .finish _, _ => inferInstanceAs (Decidable True)
  | .destroy _, _ => inferInstanceAs (Decidable True)
  | .clearPriorities, _ => inferInstanceAs (Decidable True)

/-- A test that holds of each event in the state it comes in. -/
def Throughout (test : Event → FileLoaderQueue → Prop) : List Event → FileLoaderQueue → Prop
  | [], _ => True
  | event :: events, s => test event s ∧ ∀ s' ∈ s.step event, Throughout test events s'

instance decidableThroughout (test : Event → FileLoaderQueue → Prop)
    [∀ event s, Decidable (test event s)] :
    (events : List Event) → (s : FileLoaderQueue) → Decidable (Throughout test events s)
  | [], _ => inferInstanceAs (Decidable True)
  | _ :: events, _ =>
    have := decidableThroughout test events
    inferInstanceAs (Decidable (_ ∧ _))

/-- Whether a start of the loader came to the queue, and the loader was not paused nor destroyed
since. -/
def waitsAfter (r : ℕ) : Event → FileLoaderQueue → Bool → Bool
  | .start x _ _ conditions, s, waits => waits || x = r && s.reachesQueue r conditions
  | .pause x, _, waits => waits && x ≠ r
  | .destroy x, _, waits => waits && x ≠ r
  | _, _, waits => waits

def waits (r : ℕ) : List Event → FileLoaderQueue → Bool → Bool
  | [], _, waiting => waiting
  | event :: events, s, waiting =>
    match s.step event with
    | none => waiting
    | some s' => waits r events s' (waitsAfter r event s waiting)

theorem new_wellFormed : new.WellFormed [] where
  nodup := List.nodup_nil
  linked := trivial
  start_eq := rfl
  end_eq := rfl
  inQueue _ := by simp [new]
  alive := by simp
  made := by simp
  unlinked _ _ := ⟨rfl, rfl⟩
  currentFirst := List.Pairwise.nil
  priority_le _ := by simp [new]
  alive_lt := by simp [new]

theorem WellFormed.create (h : s.WellFormed l) : s.create.WellFormed l := by
  have hmade : ∀ x, x < s.made → x ≠ s.made := fun x hx => hx.ne
  refine ⟨⟨h.nodup, h.linked.congr (fun _ _ => rfl) fun _ _ => rfl, h.start_eq, h.end_eq, h.inQueue,
    fun x hx => ?_, fun x hx => (h.made x hx).trans (Nat.lt_succ_self _), h.unlinked⟩,
    h.currentFirst, h.priority_le, fun x hx => ?_⟩
  · rw [FileLoaderQueue.create]
    dsimp only
    rw [Function.update_of_ne (hmade x (h.made x hx))]
    exact h.alive x hx
  · by_cases hxmade : x = s.made
    · rw [hxmade]
      exact Nat.lt_succ_self _
    · rw [FileLoaderQueue.create] at hx
      dsimp only at hx
      rw [Function.update_of_ne hxmade] at hx
      exact (h.alive_lt x hx).trans (Nat.lt_succ_self _)

theorem WellFormed.clearPriorities (h : s.WellFormed l) : s.clearPriorities.WellFormed l := by
  have hlt : ∀ x, s.priority x < s.currentPriority + 1 := fun x => Int.lt_add_one_of_le (h.priority_le x)
  refine ⟨h.toChained.congr rfl rfl rfl rfl rfl, ?_, fun x => (hlt x).le, h.alive_lt⟩
  refine List.Pairwise.imp ?_ (show l.Pairwise _ from h.nodup)
  exact fun {x y} _ hy => absurd hy (hlt y).ne

/-- A state that differs in who is paused or finished. -/
theorem WellFormed.withMarks (h : s.WellFormed l) (paused finished : ℕ → Bool) :
    WellFormed { s with paused := paused, finished := finished } l :=
  ⟨h.toChained.congr rfl rfl rfl rfl rfl, h.currentFirst, h.priority_le, h.alive_lt⟩

theorem WellFormed.remove (h : s.WellFormed l) (r : ℕ) : ∃ t, s.removeFromQueue r = some t ∧
    t.WellFormed (l.erase r) ∧ SameLoaders s t := by
  obtain ⟨t, hremove, ht, hsame⟩ := removeFromQueue_spec h.toChained r
  refine ⟨t, hremove, ⟨ht, ?_, ?_, ?_⟩, hsame⟩
  · exact (h.currentFirst.sublist List.erase_sublist).congr hsame.currentPriority fun x _ => by
      rw [hsame.priority]
  · rw [hsame.priority, hsame.currentPriority]
    exact h.priority_le
  · rw [hsame.alive, hsame.made]
    exact h.alive_lt

/-- A destroyed loader is no longer followed. -/
theorem WellFormed.withoutLoader (h : s.WellFormed l) (hr : r ∉ l) :
    WellFormed { s with nodes := { s.nodes with alive := Function.update s.nodes.alive r false } } l := by
  refine ⟨⟨h.nodup, h.linked.congr (fun _ _ => rfl) fun _ _ => rfl, h.start_eq, h.end_eq, h.inQueue,
    fun x hx => ?_, h.made, h.unlinked⟩, h.currentFirst, h.priority_le, fun x hx => ?_⟩
  · dsimp only
    rw [Function.update_of_ne (ne_of_mem_of_not_mem hx hr)]
    exact h.alive x hx
  · by_cases hxr : x = r
    · rw [hxr] at hx
      dsimp only at hx
      rw [Function.update_self] at hx
      cases hx
    · dsimp only at hx
      rw [Function.update_of_ne hxr] at hx
      exact h.alive_lt x hx

/-- What a step keeps: who waits in the queue, unless the loader is finished. -/
def Waiting (waits : ℕ → Bool) (s : FileLoaderQueue) : Prop :=
  ∀ r, waits r → s.finished r = false → s.inQueue r

theorem Waiting.erase {waits : ℕ → Bool} (hl : s.WellFormed l) (h : s.Waiting waits)
    {t : FileLoaderQueue} (ht : t.WellFormed (l.erase r)) (hfinished : ∀ x, x ≠ r → t.finished x = s.finished x)
    (hr : t.finished r ∨ waits r = false) : t.Waiting waits := by
  intro x hx hxf
  by_cases hxr : x = r
  · subst hxr
    rcases hr with hr | hr
    · rw [hxf] at hr
      cases hr
    · rw [hr] at hx
      cases hx
  · rw [ht.inQueue, List.Nodup.mem_erase_iff hl.nodup]
    exact ⟨hxr, (hl.inQueue x).mp (h x hx (hfinished x hxr ▸ hxf))⟩

theorem finish_spec {waits : ℕ → Bool} (h : s.WellFormed l) (hwaits : s.Waiting waits) (r : ℕ) :
    ∃ t l', s.finish r = some t ∧ t.WellFormed l' ∧ t.Waiting waits := by
  have hmarked := h.withMarks s.paused (Function.update s.finished r true)
  obtain ⟨t, hremove, ht, hsame⟩ := hmarked.remove r
  refine ⟨t, l.erase r, hremove, ht, hwaits.erase h ht (fun x hx => ?_) (.inl ?_)⟩
  · rw [hsame.finished]
    exact Function.update_of_ne hx _ _
  · rw [hsame.finished]
    exact Function.update_self ..

theorem step_spec {waits : ℕ → Bool} (h : s.WellFormed l) (hwaits : s.Waiting waits) (event : Event)
    (hallowed : s.Allowed event) (hfits : s.Fits event) : ∃ t l', s.step event = some t ∧
      t.WellFormed l' ∧ t.Waiting fun r => waitsAfter r event s (waits r) := by
  cases event with
  | create => exact ⟨s.create, l, rfl, h.create, hwaits⟩
  | clearPriorities => exact ⟨s.clearPriorities, l, rfl, h.clearPriorities, hwaits⟩
  | cancel r => exact finish_spec h hwaits r
  | finish r => exact finish_spec h hwaits r
  | pause r =>
    obtain ⟨t, hremove, ht, hsame⟩ := h.remove r
    have hpaused := ht.withMarks (Function.update t.paused r true) t.finished
    refine ⟨_, l.erase r, by rw [step, pause, hremove]; rfl, hpaused, ?_⟩
    refine Waiting.erase h (fun x hx => ?_) hpaused (fun x _ => ?_) (.inr ?_)
    · exact hwaits x (Bool.and_eq_true_iff.mp hx).1
    · exact congrFun hsame.finished x
    · simp [waitsAfter]
  | destroy r =>
    obtain ⟨t, hremove, ht, hsame⟩ := h.remove r
    have hgone := ht.withoutLoader fun hmem => (List.Nodup.mem_erase_iff h.nodup).mp hmem |>.1 rfl
    refine ⟨_, l.erase r, by rw [step, destroy, hremove]; rfl, hgone, ?_⟩
    refine Waiting.erase h (fun x hx => ?_) hgone (fun x _ => ?_) (.inr ?_)
    · exact hwaits x (Bool.and_eq_true_iff.mp hx).1
    · exact congrFun hsame.finished x
    · simp [waitsAfter]
  | start r loadFirst prior conditions =>
    have hmarked := h.withMarks (Function.update s.paused r false) s.finished
    have hwaits' : Waiting waits { s with paused := Function.update s.paused r false } := hwaits
    have hsame : s.reachesQueue r conditions = false →
        (fun x => waitsAfter x (.start r loadFirst prior conditions) s (waits x)) = waits := by
      intro hreaches
      funext x
      by_cases hx : r = x
      · subst hx
        simp [waitsAfter, hreaches]
      · simp [waitsAfter, hx]
    rw [step, start]
    dsimp only
    split_ifs with hreturn hcancel
    · rw [hsame (by rcases hreturn with hreturn | hreturn <;> simp [reachesQueue, hreturn])]
      exact ⟨_, l, rfl, hmarked, hwaits'⟩
    · rw [hsame (by rcases hcancel with hcancel | hcancel <;> simp [reachesQueue, hcancel])]
      exact finish_spec hmarked hwaits' r
    · have hreaches : s.reachesQueue r conditions := by
        rw [not_or, Bool.not_eq_true, Bool.not_eq_true] at hreturn hcancel
        simp [reachesQueue, hreturn.1, hreturn.2, hcancel.1, hcancel.2]
      obtain ⟨t, l', henqueue, ht, hmem, hfinished⟩ := enqueue_spec hmarked
        (show FitsStart r loadFirst prior { s with paused := Function.update s.paused r false } from
          hfits hreaches) hallowed
      refine ⟨t, l', henqueue, ht, fun x hx hxf => ?_⟩
      rw [ht.inQueue, hmem]
      by_cases hxr : x = r
      · exact .inl hxr
      · refine .inr ((h.inQueue x).mp (hwaits x ?_ (hfinished ▸ hxf)))
        simpa [waitsAfter, Ne.symm hxr] using hx

/-- The loaders of the current priority are the first ones. -/
theorem WellFormed.current_prefix (h : s.WellFormed l) : ∃ a b, l = a ++ b ∧
    (∀ x ∈ a, s.priority x = s.currentPriority) ∧ ∀ x ∈ b, s.priority x ≠ s.currentPriority := by
  have hfirst := h.currentFirst
  clear h
  induction l with
  | nil => exact ⟨[], [], rfl, by simp, by simp⟩
  | cons y l ih =>
    obtain ⟨hy, hl⟩ := List.pairwise_cons.mp hfirst
    by_cases hcurrent : s.priority y = s.currentPriority
    · obtain ⟨a, b, rfl, ha, hb⟩ := ih hl
      refine ⟨y :: a, b, rfl, fun x hx => ?_, hb⟩
      rcases List.mem_cons.mp hx with rfl | hx
      · exact hcurrent
      · exact ha x hx
    · refine ⟨[], y :: l, rfl, by simp, fun x hx hxcurrent => ?_⟩
      rcases List.mem_cons.mp hx with rfl | hx
      · exact hcurrent hxcurrent
      · exact hcurrent (hy x hx hxcurrent)

/-- A run whose starts fit keeps the queue well formed, with all waiting loaders in it. -/
theorem loaders_wellFormed (events : List Event)
    (hallowed : Throughout (fun event s => s.Allowed event) events new)
    (hfits : Throughout (fun event s => s.Fits event) events new) :
    ∃ s l, new.run events = some s ∧ s.WellFormed l ∧
      (∃ a b, l = a ++ b ∧ (∀ x ∈ a, s.priority x = s.currentPriority) ∧
        ∀ x ∈ b, s.priority x ≠ s.currentPriority) ∧
      ∀ r, waits r events new false → s.finished r = false → r ∈ l := by
  suffices hrun : ∀ (s : FileLoaderQueue) (l : List ℕ) (waiting : ℕ → Bool), s.WellFormed l →
      s.Waiting waiting → Throughout (fun event s => s.Allowed event) events s →
      Throughout (fun event s => s.Fits event) events s →
      ∃ s' l', s.run events = some s' ∧ s'.WellFormed l' ∧
        s'.Waiting fun r => waits r events s (waiting r) by
    obtain ⟨s, l, hs, h, hwaits⟩ := hrun new [] (fun _ => false) new_wellFormed (by simp [Waiting])
      hallowed hfits
    exact ⟨s, l, hs, h, h.current_prefix, fun r hr hrf => (h.inQueue r).mp (hwaits r hr hrf)⟩
  clear hallowed hfits
  induction events with
  | nil => exact fun s l waiting h hwaits _ _ => ⟨s, l, rfl, h, hwaits⟩
  | cons event events ih =>
    intro s l waiting h hwaits hallowed hfits
    obtain ⟨t, l', hstep, ht, hwaits'⟩ := step_spec h hwaits event hallowed.1 hfits.1
    obtain ⟨s', l'', hrun, h', hwaits''⟩ := ih t l' _ ht hwaits' (hallowed.2 t hstep) (hfits.2 t hstep)
    refine ⟨s', l'', by rw [run, hstep]; exact hrun, h', fun r hr => ?_⟩
    dsimp only [waits] at hr
    rw [hstep] at hr
    exact hwaits'' r hr

/-- A start that comes to the queue. -/
def unconditional : StartConditions := ⟨false, false, false⟩

/-- Two loaders are queued in turn, the second moved to the front, and the first taken out. -/
def twoLoaders : List Event :=
  [.create, .create, .start 0 false true unconditional, .clearPriorities,
    .start 1 false false unconditional, .start 1 true true unconditional, .pause 0]

theorem loaders_wellFormed_twoLoaders : ∃ s l, new.run twoLoaders = some s ∧ s.WellFormed l := by
  obtain ⟨s, l, hs, h, -⟩ := loaders_wellFormed twoLoaders (by decide) (by decide)
  exact ⟨s, l, hs, h⟩

def startFirst : List Event := [.create, .start 0 true false unconditional]

/-- A loader that has the current priority is started again without it. -/
def startAgain : List Event :=
  [.create, .create, .start 0 false true unconditional, .start 1 false false unconditional,
    .start 0 false false unconditional]

/-- Without the condition, one run follows a null pointer, and another leaves a loader of the current
priority behind one of a lower priority. -/
theorem loaders_not_wellFormed :
    (Throughout (fun event s => s.Allowed event) startFirst new ∧ new.run startFirst = none) ∧
    Throughout (fun event s => s.Allowed event) startAgain new ∧
      ∃ s, new.run startAgain = some s ∧ ∀ l, s.Chained l → ¬s.CurrentFirst l := by
  refine ⟨⟨by decide, by rfl⟩, by decide, ?_⟩
  obtain ⟨s, hs, hstart, hlinked, hzero, hone⟩ : ∃ s, new.run startAgain = some s ∧
      s.queueStart = some 1 ∧ s.nodes.Linked none [1, 0] none ∧
      s.priority 0 = s.currentPriority ∧ s.priority 1 ≠ s.currentPriority :=
    ⟨_, rfl, rfl, ⟨rfl, rfl, rfl, rfl, trivial⟩, rfl, by decide⟩
  refine ⟨s, hs, fun l hl hfirst => ?_⟩
  obtain rfl : l = [1, 0] := hl.linked.head?_tail_eq hlinked (hl.start_eq.symm.trans hstart)
  exact hone ((List.pairwise_cons.mp hfirst).1 0 (by simp) hzero)

end FileLoaderQueue

end Bettergram.Storage
