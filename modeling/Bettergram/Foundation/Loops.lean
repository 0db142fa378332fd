import Mathlib.Data.Nat.Notation
import Mathlib.Logic.Relation
import Mathlib.Tactic.TypeStar

/-! # Loops

A loop takes one turn after another until a turn ends it. It ends when each turn
that it can reach makes something smaller, and does not end from where it stays
among turns that all go on.
-/

namespace Bettergram.Foundation

/-- What a turn comes to: the next state, or the result. -/
inductive Turn (σ ρ : Type*) where
  | next (s : σ)
  | done (result : ρ)

variable {σ ρ : Type*} (turn : σ → Turn σ ρ)

/-- At most so many turns; `none` when they are not enough. -/
def loop : ℕ → σ → Option ρ
  | 0, _ => none
  | turns + 1, s =>
    match turn s with
    | .next s' => loop turns s'
    | .done result => some result

def Ends (s : σ) : Prop := ∃ turns result, loop turn turns s = some result

/-- The states of the run from `s`. -/
def Reached : σ → σ → Prop := Relation.ReflTransGen fun s s' => turn s = .next s'

variable {turn} {s s' t : σ}

theorem loop_next (h : turn s = .next s') (turns : ℕ) :
    loop turn (turns + 1) s = loop turn turns s' := by
  rw [loop, h]

theorem loop_done {result : ρ} (h : turn s = .done result) (turns : ℕ) :
    loop turn (turns + 1) s = some result := by
  rw [loop, h]

theorem ends_iff_of_next (h : turn s = .next s') : Ends turn s ↔ Ends turn s' := by
  constructor
  · rintro ⟨turns, result, hloop⟩
    cases turns with
    | zero => exact absurd hloop (by simp [loop])
    | succ turns => exact ⟨turns, result, (loop_next h turns).symm.trans hloop⟩
  · rintro ⟨turns, result, hloop⟩
    exact ⟨turns + 1, result, (loop_next h turns).trans hloop⟩

theorem ends_iff_of_reached (h : Reached turn s t) : Ends turn s ↔ Ends turn t := by
  induction h with
  | refl => rfl
  | tail _ hnext ih => exact ih.trans (ends_iff_of_next hnext)

/-- A loop with a measure that each turn makes smaller. -/
theorem ends_of_less {α : Type*} {r : α → α → Prop} (hr : WellFounded r) (measure : σ → α)
    (h : ∀ t t', Reached turn s t → turn t = .next t' → r (measure t') (measure t)) :
    Ends turn s := by
  obtain ⟨value, hvalue⟩ : ∃ value, measure s = value := ⟨_, rfl⟩
  induction value using hr.induction generalizing s with
  | _ value ih =>
    cases hs : turn s with
    | done result => exact ⟨1, result, loop_done hs 0⟩
    | next s' =>
      have hless := h s s' .refl hs
      rw [hvalue] at hless
      exact (ends_iff_of_next hs).mpr
        (ih _ hless (fun t t' hreached => h t t' (.head hs hreached)) rfl)

/-- A loop that comes to where every turn goes on and stays there. -/
theorem not_ends_of_stays {P : σ → Prop} (hstays : ∀ t, P t → ∃ t', turn t = .next t' ∧ P t')
    (hreached : Reached turn s t) (ht : P t) : ¬Ends turn s := by
  rw [ends_iff_of_reached hreached]
  rintro ⟨turns, result, hloop⟩
  clear hreached
  induction turns generalizing t with
  | zero => exact absurd hloop (by simp [loop])
  | succ turns ih =>
    obtain ⟨t', hnext, ht'⟩ := hstays t ht
    rw [loop_next hnext] at hloop
    exact ih ht' hloop

theorem reached_invariant {P : σ → Prop} (hkeeps : ∀ t t', P t → turn t = .next t' → P t')
    (hs : P s) (hreached : Reached turn s t) : P t := by
  induction hreached with
  | refl => exact hs
  | tail _ hnext ih => exact hkeeps _ _ ih hnext

/-- What holds of every turn's result holds of the loop's. -/
theorem loop_result {P : σ → Prop} {Q : ρ → Prop}
    (hkeeps : ∀ t t', P t → turn t = .next t' → P t')
    (hdone : ∀ t result, P t → turn t = .done result → Q result) (hs : P s) {turns : ℕ}
    {result : ρ} (h : loop turn turns s = some result) : Q result := by
  induction turns generalizing s with
  | zero => exact absurd h (by simp [loop])
  | succ turns ih =>
    cases hturn : turn s with
    | next s' =>
      rw [loop_next hturn] at h
      exact ih (hkeeps s s' hs hturn) h
    | done result' =>
      rw [loop_done hturn] at h
      exact Option.some.inj h ▸ hdone s result' hs hturn

end Bettergram.Foundation

/-! ## Results without an error

A computation that may fail returns, and its result has a property. The rules
follow the computation from its first step on.
-/

namespace Bettergram.Foundation

universe u v

variable {ε : Type u} {α β : Type v} {x : Except ε α} {f : α → Except ε β} {P Q : α → Prop}
  {R : β → Prop}

/-- There is a result, with the property. -/
def Returns (x : Except ε α) (P : α → Prop) : Prop := ∃ a, x = .ok a ∧ P a

theorem returns_pure {a : α} (h : P a) : Returns (pure a : Except ε α) P := ⟨a, rfl, h⟩

theorem Returns.bind (hx : Returns x P) (hf : ∀ a, P a → Returns (f a) R) :
    Returns (x >>= f) R := by
  obtain ⟨a, rfl, ha⟩ := hx
  exact hf a ha

theorem Returns.imp (hx : Returns x P) (h : ∀ a, P a → Q a) : Returns x Q := by
  obtain ⟨a, rfl, ha⟩ := hx
  exact ⟨a, rfl, h a ha⟩

theorem returns_ite {c : Prop} [Decidable c] {y : Except ε α} (hx : c → Returns x P)
    (hy : ¬c → Returns y P) : Returns (if c then x else y) P := by
  by_cases hc : c
  · rw [if_pos hc]
    exact hx hc
  · rw [if_neg hc]
    exact hy hc

/-- What is known of the one result. -/
theorem Returns.of_eq {a : α} (hx : Returns x P) (h : x = .ok a) : P a := by
  obtain ⟨b, hb, hP⟩ := hx
  exact Except.ok.inj (h.symm.trans hb) ▸ hP

/-- A computation with a result has made its first step. -/
theorem exists_of_bind_eq_ok {b : β} (h : (x >>= f) = .ok b) : ∃ a, x = .ok a ∧ f a = .ok b := by
  cases x with
  | error fault => cases h
  | ok a => exact ⟨a, rfl, h⟩

end Bettergram.Foundation
