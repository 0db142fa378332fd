import Bettergram.Mtproto.ResetInvariant

/-! # Message ids while a session is reset

The requests that were sent or are to be sent again are gone through one by
one. The maps stay as they are until the end, so that an id that was given to a
request still looks unused when the next one asks for an id.
-/

namespace Bettergram.Mtproto
open Foundation

/-- What a message id stands for. -/
inductive Holder where
  | sent (request : RequestRef)
  | lost (requestId : RequestId)
  | acked (requestId : RequestId)
deriving DecidableEq

namespace SessionData

def Holds (s : SessionData) (msgId : MsgId) : Holder → Prop
  | .sent request => s.haveSent[msgId]? = some request
  | .lost requestId => s.toResend[msgId]? = some requestId
  | .acked requestId => s.wereAcked[msgId]? = some requestId

/-- No two requests have one message id, and a request is found under the id that it has. -/
structure Apart (s : SessionData) : Prop where
  one : ∀ {msgId : MsgId} {holder holder' : Holder},
    s.Holds msgId holder → s.Holds msgId holder' → holder = holder'
  sent : ∀ {msgId : MsgId} {request : RequestRef},
    s.haveSent[msgId]? = some request → (s.requests request).msgId = msgId
  lost : ∀ {msgId : MsgId} {requestId : RequestId} {request : RequestRef},
    s.toResend[msgId]? = some requestId → s.toSend[requestId]? = some request →
      (s.requests request).msgId = msgId

/-! ## The first unused id -/

variable (clock : ℕ → MsgId)

/-- The next ids of the clock grow; there is one more of them than there are ids in the maps. -/
def Advances (s : SessionData) : Prop :=
  ∀ i < s.usedCount, clock (s.msgIdCalls + i) < clock (s.msgIdCalls + (i + 1))

instance (s : SessionData) : Decidable (s.Advances clock) :=
  inferInstanceAs (Decidable (∀ i < _, _))

/-- The first of the next ids of the clock that no map has. -/
def firstUnused (s : SessionData) : MsgId :=
  (((List.range (s.usedCount + 1)).map fun i => clock (s.msgIdCalls + i)).find?
    fun msgId => !s.isUsed msgId).getD 0

variable {clock} {s : SessionData}

theorem Advances.lt (h : s.Advances clock) {i j : ℕ} (hij : i < j) (hj : j ≤ s.usedCount) :
    clock (s.msgIdCalls + i) < clock (s.msgIdCalls + j) := by
  induction j with
  | zero => omega
  | succ j ih =>
    obtain rfl | hlt := Nat.eq_or_lt_of_le (Nat.le_of_lt_succ hij)
    · exact h i (by omega)
    · exact UInt64.lt_trans (ih hlt (by omega)) (h j (by omega))

theorem isUsed_iff {msgId : MsgId} : s.isUsed msgId = true ↔
    msgId ∈ keySet s.toResend ∪ keySet s.wereAcked ∪ keySet s.haveSent := by
  simp [isUsed, or_assoc]

/-- The maps cannot have all of the next ids. -/
theorem Advances.exists_unused (h : s.Advances clock) :
    ∃ i ≤ s.usedCount, s.isUsed (clock (s.msgIdCalls + i)) = false := by
  by_contra hall
  push Not at hall
  simp only [ne_eq, Bool.not_eq_false] at hall
  let used := keySet s.toResend ∪ keySet s.wereAcked ∪ keySet s.haveSent
  have hcard : used.card ≤ s.usedCount := by
    have hunion := Finset.card_union_le (keySet s.toResend ∪ keySet s.wereAcked)
      (keySet s.haveSent)
    have hunion' := Finset.card_union_le (keySet s.toResend) (keySet s.wereAcked)
    simp only [card_keySet] at hunion hunion'
    exact hunion.trans (Nat.add_le_add_right hunion' _)
  have hinj : Set.InjOn (fun i => clock (s.msgIdCalls + i))
      (Finset.range (s.usedCount + 1) : Set ℕ) := by
    intro i hi j hj heq
    simp only [Finset.coe_range, Set.mem_Iio] at hi hj
    by_contra hne
    obtain hlt | hlt := Nat.lt_or_gt_of_ne hne
    · exact UInt64.ne_of_lt (h.lt hlt (by omega)) heq
    · exact UInt64.ne_of_lt (h.lt hlt (by omega)) heq.symm
  have hle := Finset.card_le_card_of_injOn (fun i => clock (s.msgIdCalls + i))
    (s := Finset.range (s.usedCount + 1)) (t := used)
    (fun i hi => isUsed_iff.mp (hall i (Nat.le_of_lt_succ (by simpa using hi)))) hinj
  rw [Finset.card_range] at hle
  omega

/-- The loop for an unused id ends with the first one. -/
theorem unusedMsgId_walk (h : s.Advances clock) {i j : ℕ} (hj : j ≤ s.usedCount)
    (hused : ∀ k < j, s.isUsed (clock (s.msgIdCalls + k)) = true)
    (hunused : s.isUsed (clock (s.msgIdCalls + j)) = false) (hij : i ≤ j) :
    ({ s with msgIdCalls := s.msgIdCalls + i + 1 } : SessionData).unusedMsgId clock
        (s.usedCount + 1 - i) (clock (s.msgIdCalls + i)) =
      (clock (s.msgIdCalls + j), { s with msgIdCalls := s.msgIdCalls + j + 1 }) := by
  induction hk : j - i generalizing i with
  | zero =>
    obtain rfl : i = j := by omega
    exact unusedMsgId_of_unused (s := { s with msgIdCalls := s.msgIdCalls + i + 1 }) hunused _
  | succ k ih =>
    obtain ⟨fuel, hfuel⟩ : ∃ fuel, s.usedCount + 1 - i = fuel + 1 := ⟨s.usedCount - i, by omega⟩
    have hnext := ih (i := i + 1) (by omega) (by omega)
    have hsame : s.usedCount + 1 - (i + 1) = fuel := by omega
    have hlater : ¬ clock (s.msgIdCalls + (i + 1)) ≤ clock (s.msgIdCalls + i) :=
      UInt64.not_le.mpr (h.lt (Nat.lt_succ_self i) (by omega))
    have husedi : ({ s with msgIdCalls := s.msgIdCalls + i + 1 } : SessionData).isUsed
        (clock (s.msgIdCalls + i)) = true := hused i (by omega)
    rw [hsame] at hnext
    rw [hfuel, unusedMsgId, if_pos husedi]
    exact (if_neg hlater).trans hnext

theorem exists_firstUnused (h : s.Advances clock) :
    ∃ j, s.firstUnused clock = clock (s.msgIdCalls + j) ∧
      s.isUsed (s.firstUnused clock) = false ∧
      (s.nextMsgId clock).2.unusedMsgId clock (s.usedCount + 1) (s.nextMsgId clock).1 =
        (s.firstUnused clock, { s with msgIdCalls := s.msgIdCalls + j + 1 }) ∧
      (s.nextMsgId clock).1 ≤ s.firstUnused clock := by
  classical
  have hexists := h.exists_unused
  obtain ⟨hj, hunused⟩ := Nat.find_spec hexists
  have hmin : ∀ k < Nat.find hexists, s.isUsed (clock (s.msgIdCalls + k)) = true := by
    intro k hk
    have hnot := Nat.find_min hexists hk
    rw [not_and] at hnot
    simpa using hnot (by omega)
  generalize Nat.find hexists = j at *
  have hfirst : s.firstUnused clock = clock (s.msgIdCalls + j) := by
    have hfind : (List.range (s.usedCount + 1)).find?
        ((fun msgId => !s.isUsed msgId) ∘ fun i => clock (s.msgIdCalls + i)) = some j := by
      rw [List.find?_range_eq_some]
      exact ⟨by simp [hunused], by simp; omega, fun k hk => by simp [hmin k hk]⟩
    rw [firstUnused, List.find?_map, hfind]
    rfl
  refine ⟨j, hfirst, hfirst ▸ hunused, ?_, ?_⟩
  · rw [hfirst]
    exact unusedMsgId_walk h hj hmin hunused (Nat.zero_le j)
  · rw [hfirst]
    obtain rfl | hlt := Nat.eq_zero_or_pos j
    · exact UInt64.le_refl _
    · exact UInt64.le_of_lt (h.lt hlt hj)


/-! ## The loop -/

variable (clock) in
def resetAll (requests : List (MsgId × RequestRef)) (x : Resetting) : Resetting :=
  requests.foldl (fun x y => resetOne clock x y.1 y.2) x

@[simp] theorem resetAll_cons (y : MsgId × RequestRef) (requests : List (MsgId × RequestRef))
    (x : Resetting) :
    resetAll clock (y :: requests) x = resetAll clock requests (resetOne clock x y.1 y.2) := rfl

/-- The loop changes nothing but the ids in the requests; only requests get a number. -/
structure ResetFrom (s : SessionData) (x : Resetting) : Prop where
  session : ∃ requests msgIdCalls, x.session = { s with requests, msgIdCalls }
  same : ∀ ref, ∃ msgId, x.session.requests ref = { s.requests ref with msgId }
  numbered : ∀ ref ∈ x.setSeqNumbers.values, (s.requests ref).isSentContainer = false

theorem unusedMsgId_session (clock : ℕ → MsgId) (fuel : ℕ) (newId : MsgId) (s : SessionData) :
    ∃ msgIdCalls, (s.unusedMsgId clock fuel newId).2 = { s with msgIdCalls } := by
  induction fuel generalizing newId s with
  | zero => exact ⟨_, rfl⟩
  | succ fuel ih =>
    rw [unusedMsgId]
    split_ifs
    · dsimp only
      split_ifs
      · exact ⟨_, rfl⟩
      · exact ih _ (s.nextMsgId clock).2
    · exact ⟨_, rfl⟩

/-- What one round does to a request that gets another id. -/
theorem resetOne_above {x : Resetting} {msgId : MsgId} {ref : RequestRef}
    (hreset : x.session.isReset ref) (habove : x.newId < msgId) :
    let p := x.session.unusedMsgId clock (x.session.usedCount + 1) x.newId
    resetOne clock x msgId ref =
      { session := p.2.update ref { x.session.requests ref with msgId := p.1 }
        newId := p.1
        setSeqNumbers := x.setSeqNumbers.insert p.1 ref
        replaces := x.replaces.insert msgId p.1 } := by
  have hskip : ¬ ((x.session.requests ref).isSentContainer ∨
      (x.session.requests ref).msgId = 0) := by
    simpa [isReset, not_or] using hreset
  rw [resetOne]
  dsimp only
  rw [if_neg hskip, if_pos habove]

theorem mem_values_insert {numbers : Std.TreeMap MsgId RequestRef} {msgId : MsgId}
    {ref ref' : RequestRef} (h : ref' ∈ (numbers.insert msgId ref).values) :
    ref' = ref ∨ ref' ∈ numbers.values := by
  obtain ⟨k, hk⟩ := mem_values.mp h
  rw [insert_getElem?] at hk
  split_ifs at hk
  · exact .inl (Option.some.inj hk).symm
  · exact .inr (mem_values.mpr ⟨k, hk⟩)

theorem ResetFrom.isSentContainer {x : Resetting} (h : s.ResetFrom x) (ref : RequestRef) :
    (x.session.requests ref).isSentContainer = (s.requests ref).isSentContainer := by
  obtain ⟨msgId, hsame⟩ := h.same ref
  rw [hsame]
  rfl

theorem ResetFrom.resetOne {x : Resetting} (h : s.ResetFrom x) (msgId : MsgId)
    (ref : RequestRef) : s.ResetFrom (SessionData.resetOne clock x msgId ref) := by
  by_cases hreset : x.session.isReset ref
  · have hrequest : (s.requests ref).isSentContainer = false := by
      rw [isReset, Bool.and_eq_true, h.isSentContainer] at hreset
      simpa using hreset.1
    by_cases habove : x.newId < msgId
    · rw [resetOne_above hreset habove]
      obtain ⟨requests, n, hsession⟩ := h.session
      obtain ⟨m, hcalls⟩ := unusedMsgId_session clock (x.session.usedCount + 1)
        x.newId x.session
      generalize x.session.unusedMsgId clock (x.session.usedCount + 1) x.newId = p at *
      refine ⟨⟨Function.update requests ref { x.session.requests ref with msgId := p.1 }, m, ?_⟩,
        fun ref' => ?_, fun ref' hmem => ?_⟩
      · rw [hcalls, hsession]
        rfl
      · dsimp only
        by_cases heq : ref' = ref
        · obtain ⟨k, hk⟩ := h.same ref
          exact ⟨p.1, by rw [heq, update_requests_self, hk]⟩
        · rw [update_requests_of_ne heq, hcalls]
          exact h.same ref'
      · obtain rfl | hmem := mem_values_insert hmem
        · exact hrequest
        · exact h.numbered ref' hmem
    · have hkeep : SessionData.resetOne clock x msgId ref =
          { x with setSeqNumbers := x.setSeqNumbers.insert msgId ref } := by
        rw [SessionData.resetOne]
        dsimp only
        have hskip : ¬ ((x.session.requests ref).isSentContainer ∨
            (x.session.requests ref).msgId = 0) := by
          simpa [isReset, not_or] using hreset
        rw [if_neg hskip, if_neg habove]
      rw [hkeep]
      refine ⟨h.session, h.same, fun ref' hmem => ?_⟩
      obtain rfl | hmem := mem_values_insert hmem
      · exact hrequest
      · exact h.numbered ref' hmem
  · have hskip : SessionData.resetOne clock x msgId ref = x := by
      rw [SessionData.resetOne]
      dsimp only
      rw [if_pos]
      by_contra hnot
      rw [not_or] at hnot
      exact hreset (by simp [isReset, hnot])
    rw [hskip]
    exact h

theorem ResetFrom.resetAll (clock : ℕ → MsgId) (requests : List (MsgId × RequestRef)) {x : Resetting}
    (h : s.ResetFrom x) : s.ResetFrom (SessionData.resetAll clock requests x) := by
  induction requests generalizing x with
  | nil => exact h
  | cons y requests ih => exact ih (h.resetOne y.1 y.2)


variable {x : Resetting} {requests : List (MsgId × RequestRef)}

theorem resetOne_requests (clock : ℕ → MsgId) (x : Resetting) (msgId : MsgId) {ref ref' : RequestRef}
    (hne : ref' ≠ ref) :
    (resetOne clock x msgId ref).session.requests ref' = x.session.requests ref' := by
  by_cases habove : x.session.isReset ref ∧ x.newId < msgId
  · rw [resetOne_above habove.1 habove.2]
    obtain ⟨n, hcalls⟩ := unusedMsgId_session clock (x.session.usedCount + 1) x.newId
      x.session
    dsimp only
    rw [update_requests_of_ne hne, hcalls]
  · rw [(resetOne_below clock habove).1]

theorem resetAll_requests (clock : ℕ → MsgId) {ref : RequestRef}
    (h : ref ∉ requests.map (·.2)) (x : Resetting) :
    (resetAll clock requests x).session.requests ref = x.session.requests ref := by
  induction requests generalizing x with
  | nil => rfl
  | cons y requests ih =>
    rw [List.map_cons, List.mem_cons, not_or] at h
    exact (ih h.2 _).trans (resetOne_requests clock x y.1 h.1)

theorem isReset_congr {t : SessionData} {ref : RequestRef}
    (h : t.requests ref = s.requests ref) : t.isReset ref = s.isReset ref := by
  rw [isReset, isReset, h]

theorem ResetFrom.isUsed (h : s.ResetFrom x) (msgId : MsgId) :
    x.session.isUsed msgId = s.isUsed msgId := by
  obtain ⟨requests, n, hsession⟩ := h.session
  rw [hsession]
  rfl

/-- An unused id is given to every request that is above it. -/
theorem resetAll_gives (h : s.ResetFrom x) (hunused : s.isUsed x.newId = false)
    (hnodup : (requests.map (·.2)).Nodup)
    (hsame : ∀ y ∈ requests, x.session.requests y.2 = s.requests y.2)
    {z : MsgId × RequestRef} (hz : z ∈ requests) (hreset : s.isReset z.2) (habove : x.newId < z.1) :
    ((resetAll clock requests x).session.requests z.2).msgId = x.newId := by
  induction requests generalizing x with
  | nil => exact absurd hz (by simp)
  | cons y requests ih =>
    rw [List.map_cons, List.nodup_cons] at hnodup
    have hgives : x.session.unusedMsgId clock (x.session.usedCount + 1) x.newId =
        (x.newId, x.session) := unusedMsgId_of_unused ((h.isUsed _).trans hunused) _
    by_cases hzy : z = y
    · subst hzy
      have hresetx : x.session.isReset z.2 := (isReset_congr (hsame z (by simp))).trans hreset
      rw [resetAll_cons, resetAll_requests clock hnodup.1, resetOne_above hresetx habove, hgives]
      exact congrArg (·.msgId) (update_requests_self _ _ _)
    · have hz' : z ∈ requests := (List.mem_cons.mp hz).resolve_left hzy
      have hnewId : (resetOne clock x y.1 y.2).newId = x.newId := by
        by_cases hy : x.session.isReset y.2 ∧ x.newId < y.1
        · rw [resetOne_above hy.1 hy.2, hgives]
        · exact (resetOne_below clock hy).2.1
      have hrest := ih (h.resetOne y.1 y.2) (by rw [hnewId]; exact hunused) hnodup.2
        (fun w hw => (resetOne_requests clock x y.1 fun heq =>
          hnodup.1 (List.mem_map.mpr ⟨w, hw, heq⟩)).trans (hsame w (by simp [hw])))
        hz' (by rw [hnewId]; exact habove)
      exact hrest.trans hnewId

end SessionData

end Bettergram.Mtproto
