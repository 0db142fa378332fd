import Bettergram.Mtproto.ResetApart

/-! # Which resets keep the requests apart

A new id that was given to one request is given to the next one that is above
it too, and the later of the two takes its place. A reset loses nothing exactly
when this does not come up.
-/

namespace Bettergram.Mtproto
open Foundation

namespace SessionData

variable (clock : ℕ → MsgId)

/-- Of the requests in the order of the loop, none above the first unused id comes behind one
above the next id of the clock. -/
def OneAbove (s : SessionData) (requests : List (MsgId × RequestRef)) : Prop :=
  requests.Pairwise fun y z => ¬ ((s.isReset y.2 ∧ clock s.msgIdCalls < y.1) ∧
    s.isReset z.2 ∧ s.firstUnused clock < z.1)

instance (s : SessionData) (requests : List (MsgId × RequestRef)) :
    Decidable (s.OneAbove clock requests) := inferInstanceAs (Decidable (List.Pairwise _ _))

variable {clock} {s : SessionData} {x : Resetting} {requests : List (MsgId × RequestRef)}
  {msgId : MsgId} {ref ref' : RequestRef}

/-! ## Requests in the loop -/

theorem Apart.msgId_of_kept (h : s.Apart) (hkept : s.KeptUnder msgId ref) :
    (s.requests ref).msgId = msgId := by
  cases hkept with
  | sent hsent => exact h.sent hsent
  | lost k hresend hwaits => exact h.lost hresend hwaits

theorem Apart.not_sent_lost (h : s.Apart) {requestId : RequestId}
    (hsent : s.haveSent[msgId]? = some ref) (hresend : s.toResend[msgId]? = some requestId) :
    False := by
  have hsame : Holder.sent ref = .lost requestId := h.one hsent hresend
  exact absurd hsame (by simp)

theorem Apart.eq_of_kept (h : s.Apart) (hkept : s.KeptUnder msgId ref)
    (hkept' : s.KeptUnder msgId ref') : ref = ref' := by
  cases hkept with
  | sent hsent =>
    cases hkept' with
    | sent hsent' => exact Option.some.inj (hsent.symm.trans hsent')
    | lost k hresend _ =>
      exact (h.not_sent_lost hsent hresend).elim
  | lost k hresend hwaits =>
    cases hkept' with
    | sent hsent' =>
      exact (h.not_sent_lost hsent' hresend).elim
    | lost k' hresend' hwaits' =>
      obtain rfl : k = k' := Option.some.inj (hresend.symm.trans hresend')
      exact Option.some.inj (hwaits.symm.trans hwaits')

theorem Apart.nodup_requests (h : s.Apart) : (s.requestsToReset.map (·.2)).Nodup := by
  have hkeys : s.requestsToReset.Pairwise (·.1 ≠ ·.1) := by
    rw [requestsToReset, List.pairwise_append]
    refine ⟨?_, ?_, fun y hy z hz heq => ?_⟩
    · exact Std.TreeMap.distinct_keys_toList.imp fun hne heq => hne (by simp [heq])
    · refine List.pairwise_filterMap.mpr (Std.TreeMap.distinct_keys_toList.imp ?_)
      intro y z hne y' hy z' hz heq
      obtain ⟨_, -, rfl⟩ := Option.map_eq_some_iff.mp hy
      obtain ⟨_, -, rfl⟩ := Option.map_eq_some_iff.mp hz
      exact hne (by simpa using heq)
    · obtain ⟨⟨m, k⟩, hlost, heq'⟩ := List.mem_filterMap.mp hz
      obtain ⟨_, -, rfl⟩ := Option.map_eq_some_iff.mp heq'
      have hsent := Std.TreeMap.mem_toList_iff_getElem?_eq_some.mp hy
      have hresend := Std.TreeMap.mem_toList_iff_getElem?_eq_some.mp hlost
      dsimp only at heq
      rw [heq] at hsent
      exact h.not_sent_lost hsent hresend
  rw [List.nodup_iff_pairwise_ne, List.pairwise_map]
  refine hkeys.imp_of_mem fun {y z} hy hz hne heq => hne ?_
  rw [← h.msgId_of_kept (mem_requestsToReset hy), ← h.msgId_of_kept (mem_requestsToReset hz), heq]

/-- The loop is before the first request that is above the next id. -/
structure ResetStart (clock : ℕ → MsgId) (s : SessionData) (x : Resetting) : Prop
    extends s.ResetFrom x where
  atStart : x.session = (s.nextMsgId clock).2
  newId : x.newId = (s.nextMsgId clock).1

theorem ResetStart.isReset (h : s.ResetStart clock x) (ref : RequestRef) :
    x.session.isReset ref = s.isReset ref := by
  rw [h.atStart]
  rfl

theorem ResetStart.resetOne (h : s.ResetStart clock x)
    (hbelow : ¬ (s.isReset ref ∧ clock s.msgIdCalls < msgId)) :
    s.ResetStart clock (SessionData.resetOne clock x msgId ref) ∧
      (SessionData.resetOne clock x msgId ref).replaces = x.replaces := by
  have hbelow' : ¬ (x.session.isReset ref ∧ x.newId < msgId) := by
    rw [h.isReset, h.newId]
    exact hbelow
  obtain ⟨hsession, hnewId, hreplaces⟩ := resetOne_below clock hbelow'
  exact ⟨⟨h.toResetFrom.resetOne msgId ref, hsession.trans h.atStart, hnewId.trans h.newId⟩,
    hreplaces⟩

/-- The first request above the next id gets the first unused one. -/
theorem ResetStart.resetOne_above (h : s.ResetStart clock x) (hclock : s.Advances clock)
    (hreset : s.isReset ref) (habove : clock s.msgIdCalls < msgId) :
    ∃ j, s.firstUnused clock = clock (s.msgIdCalls + j) ∧
      (SessionData.resetOne clock x msgId ref).session =
        ({ s with msgIdCalls := s.msgIdCalls + j + 1 } : SessionData).update ref
          { s.requests ref with msgId := s.firstUnused clock } ∧
      (SessionData.resetOne clock x msgId ref).newId = s.firstUnused clock ∧
      (SessionData.resetOne clock x msgId ref).replaces =
        x.replaces.insert msgId (s.firstUnused clock) := by
  obtain ⟨j, hfirst, -, hwalk, -⟩ := exists_firstUnused hclock
  refine ⟨j, hfirst, ?_⟩
  have hnewId : x.newId < msgId := by
    rw [h.newId]
    exact habove
  have hwalk' : x.session.unusedMsgId clock (x.session.usedCount + 1) x.newId =
      (s.firstUnused clock, { s with msgIdCalls := s.msgIdCalls + j + 1 }) := by
    rw [h.newId, h.atStart]
    exact hwalk
  have hsame : x.session.requests ref = s.requests ref := by
    rw [h.atStart]
    rfl
  rw [SessionData.resetOne_above ((h.isReset ref).trans hreset) hnewId, hwalk', hsame]
  exact ⟨rfl, rfl, rfl⟩


theorem ResetStart.same_request (h : s.ResetStart clock x) (ref : RequestRef) :
    x.session.requests ref = s.requests ref := by
  rw [h.atStart]
  rfl

theorem le_firstUnused (hclock : s.Advances clock) :
    clock s.msgIdCalls ≤ s.firstUnused clock := by
  obtain ⟨-, -, -, -, hle⟩ := exists_firstUnused hclock
  exact hle

theorem isUsed_firstUnused (hclock : s.Advances clock) :
    s.isUsed (s.firstUnused clock) = false := by
  obtain ⟨-, -, hunused, -, -⟩ := exists_firstUnused hclock
  exact hunused

/-- Two requests get one id when the loop meets a second one above it. -/
theorem resetAll_collides (h : s.ResetStart clock x) (hclock : s.Advances clock)
    (hnodup : (requests.map (·.2)).Nodup) (hnot : ¬ s.OneAbove clock requests) :
    ∃ y ∈ requests, ∃ z ∈ requests, y.2 ≠ z.2 ∧
      ((resetAll clock requests x).session.requests y.2).msgId =
        ((resetAll clock requests x).session.requests z.2).msgId := by
  induction requests generalizing x with
  | nil => exact absurd List.Pairwise.nil hnot
  | cons y requests ih =>
    rw [List.map_cons, List.nodup_cons] at hnodup
    rw [OneAbove, List.pairwise_cons, not_and_or] at hnot
    rw [resetAll_cons]
    have hne : ∀ z ∈ requests, y.2 ≠ z.2 := fun z hz heq =>
      hnodup.1 (heq ▸ List.mem_map_of_mem hz)
    by_cases habove : s.isReset y.2 ∧ clock s.msgIdCalls < y.1
    · obtain ⟨j, -, hsession, hnewId, -⟩ := h.resetOne_above hclock habove.1 habove.2
      have hunused : s.isUsed (resetOne clock x y.1 y.2).newId = false := by
        rw [hnewId]
        exact isUsed_firstUnused hclock
      have hsame : ∀ z ∈ requests,
          (resetOne clock x y.1 y.2).session.requests z.2 = s.requests z.2 := fun z hz =>
        (resetOne_requests clock x y.1 (hne z hz).symm).trans (h.same_request z.2)
      -- some request behind the first one is above the first unused id
      obtain ⟨z, hz, hreset, hlt⟩ : ∃ z ∈ requests,
          s.isReset z.2 ∧ s.firstUnused clock < z.1 := by
        by_contra hnone
        push Not at hnone
        refine hnot.elim (fun hfails => hfails fun z hz hboth => ?_) fun hfails => hfails ?_
        · exact hnone z hz hboth.2.1 hboth.2.2
        · exact List.pairwise_of_forall_mem_list fun _ _ z hz hboth =>
            hnone z hz hboth.2.1 hboth.2.2
      refine ⟨y, by simp, z, by simp [hz], hne z hz, ?_⟩
      rw [resetAll_requests clock hnodup.1, hsession, update_requests_self,
        resetAll_gives (h.toResetFrom.resetOne y.1 y.2) hunused hnodup.2 hsame hz hreset
          (hnewId ▸ hlt), hnewId]
    · have hrest : ¬ s.OneAbove clock requests := hnot.resolve_left fun hfails =>
        hfails fun _ _ hboth => habove hboth.1
      obtain ⟨y', hy', z, hz, hfound⟩ := ih (h.resetOne habove).1 hnodup.2 hrest
      exact ⟨y', by simp [hy'], z, by simp [hz], hfound⟩

/-- What the loop has done when it gave no id twice. -/
inductive ResetsOnce (clock : ℕ → MsgId) (s : SessionData) (requests : List (MsgId × RequestRef))
    (x : Resetting) : Prop
  | none (session : x.session = (s.nextMsgId clock).2) (replaces : x.replaces = ∅)
      (below : ∀ y ∈ requests, s.isReset y.2 → ¬ clock s.msgIdCalls < y.1)
  | one (z : MsgId × RequestRef) (mem : z ∈ requests) (reset : s.isReset z.2) (j : ℕ)
      (first : s.firstUnused clock = clock (s.msgIdCalls + j))
      (session : x.session = ({ s with msgIdCalls := s.msgIdCalls + j + 1 } : SessionData).update
        z.2 { s.requests z.2 with msgId := s.firstUnused clock })
      (replaces : x.replaces = (∅ : Std.TreeMap MsgId MsgId).insert z.1 (s.firstUnused clock))
      (below : ∀ y ∈ requests, y.2 ≠ z.2 → s.isReset y.2 → ¬ s.firstUnused clock < y.1)

theorem resetAll_once (h : s.ResetStart clock x) (hreplaces : x.replaces = ∅)
    (hclock : s.Advances clock) (hnodup : (requests.map (·.2)).Nodup)
    (hone : s.OneAbove clock requests) :
    s.ResetsOnce clock requests (resetAll clock requests x) := by
  induction requests generalizing x with
  | nil => exact .none h.atStart hreplaces (by simp)
  | cons y requests ih =>
    rw [List.map_cons, List.nodup_cons] at hnodup
    rw [OneAbove, List.pairwise_cons] at hone
    rw [resetAll_cons]
    by_cases habove : s.isReset y.2 ∧ clock s.msgIdCalls < y.1
    · obtain ⟨j, hfirst, hsession, hnewId, hreplaces'⟩ :=
        h.resetOne_above hclock habove.1 habove.2
      have hbelow : ∀ z ∈ requests, s.isReset z.2 → ¬ s.firstUnused clock < z.1 :=
        fun z hz hreset hlt => hone.1 z hz ⟨habove, hreset, hlt⟩
      have hbelow' : ∀ z ∈ requests, ¬ ((resetOne clock x y.1 y.2).session.isReset z.2 ∧
          (resetOne clock x y.1 y.2).newId < z.1) := by
        intro z hz hboth
        have hne : z.2 ≠ y.2 := fun heq => hnodup.1 (heq ▸ List.mem_map_of_mem hz)
        have hsame := (resetOne_requests clock x y.1 hne).trans (h.same_request z.2)
        exact hbelow z hz ((isReset_congr hsame).symm.trans hboth.1) (hnewId ▸ hboth.2)
      have hrest := resetAll_below clock hbelow'
      refine .one y (by simp) habove.1 j hfirst (hrest.1.trans hsession)
        (hrest.2.trans (hreplaces'.trans (by rw [hreplaces]))) fun z hz hne => ?_
      exact hbelow z ((List.mem_cons.mp hz).resolve_left fun heq => hne (by rw [heq]))
    · obtain ⟨hstart, hsame⟩ := h.resetOne habove
      cases ih hstart (hsame.trans hreplaces) hnodup.2 hone.2 with
      | none hsession hreplaces' hbelow =>
        refine .none hsession hreplaces' fun z hz hreset hlt => ?_
        obtain rfl | hz := List.mem_cons.mp hz
        · exact habove ⟨hreset, hlt⟩
        · exact hbelow z hz hreset hlt
      | one z hz hreset j hfirst hsession hreplaces' hbelow =>
        refine .one z (by simp [hz]) hreset j hfirst hsession hreplaces' fun w hw hne hresetw hlt => ?_
        obtain rfl | hw := List.mem_cons.mp hw
        · exact habove ⟨hresetw, UInt64.lt_of_le_of_lt (le_firstUnused hclock) hlt⟩
        · exact hbelow w hw hne hresetw hlt

end SessionData

end Bettergram.Mtproto
