import Mathlib.Data.List.Induction

/-! # The log of one key

A log entry sets the value of a key, erases it, or touches a value that is
there. A later entry of the first two kinds hides everything before it, and of
two touches only the later one shows, so a stretch of log that is replayed over
its own result changes nothing.
-/

namespace Bettergram.Foundation

variable {T V : Type*}

/-- What a log entry does to the value of a key. -/
inductive KeyOp (T V : Type*) where
  | set (value : V)
  | erase
  | touch (time : T)

namespace KeyOp

variable (touched : T → V → V)

def apply : KeyOp T V → Option V → Option V
  | set value, _ => some value
  | erase, _ => none
  | touch time, x => x.map (touched time)

/-- Whatever was there before does not matter. -/
def Decides (op : KeyOp T V) : Prop := ∀ time, op ≠ touch time

end KeyOp

variable (touched : T → V → V)

def replayKey (ops : List (KeyOp T V)) (x : Option V) : Option V :=
  ops.foldl (fun x op => op.apply touched x) x

@[simp] theorem replayKey_nil (x : Option V) : replayKey touched [] x = x := rfl

@[simp] theorem replayKey_cons (op : KeyOp T V) (ops : List (KeyOp T V)) (x : Option V) :
    replayKey touched (op :: ops) x = replayKey touched ops (op.apply touched x) := rfl

theorem replayKey_append (ops later : List (KeyOp T V)) (x : Option V) :
    replayKey touched (ops ++ later) x = replayKey touched later (replayKey touched ops x) :=
  List.foldl_append

variable {touched} {ops : List (KeyOp T V)}

theorem KeyOp.Decides.apply {op : KeyOp T V} (h : op.Decides) (x y : Option V) :
    op.apply touched x = op.apply touched y := by
  cases op with
  | set value => rfl
  | erase => rfl
  | touch time => exact absurd rfl (h time)

/-- A deciding entry hides what was there before the log. -/
theorem replayKey_of_decides {op : KeyOp T V} (hop : op ∈ ops) (h : op.Decides) (x y : Option V) :
    replayKey touched ops x = replayKey touched ops y := by
  induction ops generalizing x y with
  | nil => cases hop
  | cons first ops ih =>
    rw [replayKey_cons, replayKey_cons]
    rcases List.mem_cons.mp hop with rfl | hop
    · rw [h.apply x y]
    · exact ih hop _ _

/-- Without one, a value that is not there stays away. -/
theorem replayKey_none (h : ∀ op ∈ ops, ¬op.Decides) : replayKey touched ops none = none := by
  induction ops with
  | nil => rfl
  | cons op ops ih =>
    have hop : ∃ time, op = .touch time := by
      simpa [KeyOp.Decides] using h op (by simp)
    obtain ⟨time, rfl⟩ := hop
    exact ih fun o ho => h o (by simp [ho])

/-- Either the log decides, or it only touches. -/
theorem replayKey_cases (touched : T → V → V) (ops : List (KeyOp T V)) :
    (∀ x y, replayKey touched ops x = replayKey touched ops y) ∨ ∀ op ∈ ops, ¬op.Decides := by
  by_cases h : ∃ op ∈ ops, op.Decides
  · obtain ⟨op, hop, hdecides⟩ := h
    exact .inl (replayKey_of_decides hop hdecides)
  · simp only [not_exists, not_and] at h
    exact .inr h

/-- A key that is gone afterwards would be gone without the value it had. -/
theorem replayKey_eq_none {x : Option V} (h : replayKey touched ops x = none) :
    replayKey touched ops none = none := by
  rcases replayKey_cases touched ops with hdecides | htouches
  · rw [hdecides none x, h]
  · exact replayKey_none htouches

/-- A value that is there afterwards was set by the log, and then perhaps touched. -/
theorem replayKey_eq_some {value : V} (h : replayKey touched ops none = some value) :
    ∃ (start : V) (times : List T), KeyOp.set start ∈ ops ∧
      value = times.foldl (fun v time => touched time v) start := by
  induction ops using List.reverseRecOn generalizing value with
  | nil => cases h
  | append_singleton ops op ih =>
    rw [replayKey_append] at h
    cases op with
    | set start => exact ⟨start, [], by simp, (Option.some.inj h).symm⟩
    | erase => cases h
    | touch time =>
      obtain ⟨before, hbefore, rfl⟩ := Option.map_eq_some_iff.mp h
      obtain ⟨start, times, hmem, rfl⟩ := ih hbefore
      exact ⟨start, times ++ [time], by simp [hmem], by rw [List.foldl_append]; rfl⟩

/-- What holds of the value before the log and of every value that is set, and touches keep. -/
theorem replayKey_inv {P : V → Prop} {x : Option V} (hx : ∀ v ∈ x, P v)
    (hset : ∀ v, KeyOp.set v ∈ ops → P v)
    (htouch : ∀ time v, KeyOp.touch time ∈ ops → P v → P (touched time v)) :
    ∀ v ∈ replayKey touched ops x, P v := by
  induction ops generalizing x with
  | nil => exact hx
  | cons op ops ih =>
    refine ih (fun v hv => ?_) (fun v hv => hset v (by simp [hv]))
      (fun time v ht => htouch time v (by simp [ht]))
    cases op with
    | set value =>
      cases hv
      exact hset v (by simp)
    | erase => cases hv
    | touch time =>
      obtain ⟨before, hbefore, rfl⟩ := Option.map_eq_some_iff.mp hv
      exact htouch time before (by simp) (hx before hbefore)

section Touches

variable (htouched : ∀ s t v, touched t (touched s v) = touched t v)
include htouched

/-- Touching first makes no difference to a log that touches again. -/
theorem replayKey_touches (h : ∀ op ∈ ops, ¬op.Decides) (x : Option V) :
    replayKey touched ops (replayKey touched ops x) = replayKey touched ops x := by
  have hfirst : ∀ (time : T) (ops : List (KeyOp T V)) (x : Option V), ops ≠ [] →
      (∀ op ∈ ops, ¬op.Decides) →
      replayKey touched ops (x.map (touched time)) = replayKey touched ops x := by
    intro time ops x hne hops
    cases ops with
    | nil => exact absurd rfl hne
    | cons op ops =>
      obtain ⟨t, rfl⟩ : ∃ t, op = .touch t := by simpa [KeyOp.Decides] using hops op (by simp)
      simp only [replayKey_cons, KeyOp.apply, Option.map_map]
      congr 2
      funext v
      exact htouched time t v
  -- the touches of the inner replay are dropped one by one, from the first
  have hall : ∀ (inner ops : List (KeyOp T V)) (x : Option V), ops ≠ [] →
      (∀ op ∈ ops, ¬op.Decides) → (∀ op ∈ inner, ¬op.Decides) →
      replayKey touched ops (replayKey touched inner x) = replayKey touched ops x := by
    intro inner ops x hne hops hinner
    induction inner using List.reverseRecOn with
    | nil => rfl
    | append_singleton inner op ih =>
      obtain ⟨t, rfl⟩ : ∃ t, op = .touch t := by simpa [KeyOp.Decides] using hinner op (by simp)
      rw [replayKey_append, replayKey_cons, replayKey_nil, KeyOp.apply, hfirst t ops _ hne hops]
      exact ih fun o ho => hinner o (by simp [ho])
  cases ops with
  | nil => rfl
  | cons op rest => exact hall _ _ x (by simp) h h

/-- Replaying a log over its own result, and then more of it, is replaying it once. -/
theorem replayKey_again (ops later : List (KeyOp T V)) (x : Option V) :
    replayKey touched (ops ++ later) (replayKey touched ops x) =
      replayKey touched (ops ++ later) x := by
  rw [replayKey_append, replayKey_append]
  congr 1
  rcases replayKey_cases touched ops with hdecides | htouches
  · exact hdecides _ _
  · exact replayKey_touches htouched htouches x

end Touches

end Bettergram.Foundation
