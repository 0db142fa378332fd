import Mathlib.Data.List.Basic
import Mathlib.Tactic.Linarith

/-! # The buffer of received message ids

Only the latest ids are kept. An id that was dropped is below everything in a
full buffer, so it is refused just as one that is still there.
-/

namespace Bettergram.Mtproto

abbrev MsgId := UInt64

def kIdsBufferSize : ℕ := 400

structure ReceivedMsgIds where
  idsNeedAck : Std.TreeMap MsgId Bool := ∅

namespace ReceivedMsgIds

inductive State where
  | notFound
  | needsAck
  | noAckNeeded
  deriving DecidableEq

def min (s : ReceivedMsgIds) : MsgId := s.idsNeedAck.minKey?.getD 0
def max (s : ReceivedMsgIds) : MsgId := s.idsNeedAck.maxKey?.getD 0

def registerMsgId (msgId : MsgId) (needAck : Bool) (s : ReceivedMsgIds) : Bool × ReceivedMsgIds :=
  if s.idsNeedAck.contains msgId then (false, s)
  else if s.idsNeedAck.size < kIdsBufferSize ∨ s.min < msgId then
    (true, { idsNeedAck := s.idsNeedAck.insert msgId needAck })
  else (false, s)

/-- Erases the first id some times. -/
def eraseBegin : ℕ → Std.TreeMap MsgId Bool → Std.TreeMap MsgId Bool
  | 0, ids => ids
  | n + 1, ids =>
    match ids.minKey? with
    | none => ids
    | some first => eraseBegin n (ids.erase first)

def shrink (s : ReceivedMsgIds) : ReceivedMsgIds where
  idsNeedAck := eraseBegin (s.idsNeedAck.size - kIdsBufferSize) s.idsNeedAck

def lookup (msgId : MsgId) (s : ReceivedMsgIds) : State :=
  match s.idsNeedAck[msgId]? with
  | none => .notFound
  | some true => .needsAck
  | some false => .noAckNeeded

/-- What is done with the buffer while messages come in. -/
inductive Op where
  | registerMsgId (msgId : MsgId) (needAck : Bool)
  | shrink

/-- The ids that were to be handled, in order. -/
def accepted : List Op → ReceivedMsgIds → List MsgId
  | [], _ => []
  | .registerMsgId msgId needAck :: ops, s =>
    let (needToHandle, s) := s.registerMsgId msgId needAck
    if needToHandle then msgId :: s.accepted ops else s.accepted ops
  | .shrink :: ops, s => s.shrink.accepted ops

/-- An id that was accepted is still there, or it is below all of a full buffer. -/
def Remembers (ids : Std.TreeMap MsgId Bool) (msgId : MsgId) : Prop :=
  msgId ∈ ids ∨ (kIdsBufferSize ≤ ids.size ∧ ∀ k ∈ ids, msgId < k)

variable {ids : Std.TreeMap MsgId Bool} {first msgId : MsgId}

theorem mem_of_minKey? (h : ids.minKey? = some first) : first ∈ ids :=
  (Std.TreeMap.minKey?_eq_some_iff_mem_and_forall.mp h).1

theorem le_of_minKey? (h : ids.minKey? = some first) {k : MsgId} (hk : k ∈ ids) : first ≤ k :=
  Std.LawfulOrderOrd.isLE_compare _ _ |>.mp
    ((Std.TreeMap.minKey?_eq_some_iff_mem_and_forall.mp h).2 k hk)

theorem Remembers.erase_first (h : Remembers ids msgId) (hfirst : ids.minKey? = some first)
    (hfull : kIdsBufferSize < ids.size) : Remembers (ids.erase first) msgId := by
  have hmem := mem_of_minKey? hfirst
  have hsize : (ids.erase first).size = ids.size - 1 := by
    rw [Std.TreeMap.size_erase, if_pos (Std.TreeMap.mem_iff_contains.mp hmem)]
  have hrest : ∀ k ∈ ids.erase first, k ∈ ids ∧ first < k := by
    intro k hk
    rw [Std.TreeMap.mem_erase, ne_eq, Std.LawfulEqCmp.compare_eq_iff_eq] at hk
    exact ⟨hk.2, UInt64.lt_of_le_of_ne (le_of_minKey? hfirst hk.2) hk.1⟩
  rcases h with hin | ⟨-, hbelow⟩
  · by_cases heq : first = msgId
    · subst heq
      exact .inr ⟨by omega, fun k hk => (hrest k hk).2⟩
    · left
      rw [Std.TreeMap.mem_erase, ne_eq, Std.LawfulEqCmp.compare_eq_iff_eq]
      exact ⟨heq, hin⟩
  · exact .inr ⟨by omega, fun k hk => hbelow k (hrest k hk).1⟩

theorem Remembers.eraseBegin (h : Remembers ids msgId) {n : ℕ}
    (hn : n ≤ ids.size - kIdsBufferSize) : Remembers (eraseBegin n ids) msgId := by
  induction n generalizing ids with
  | zero => exact h
  | succ n ih =>
    rw [ReceivedMsgIds.eraseBegin]
    split
    · exact h
    · next first hfirst =>
      apply ih (h.erase_first hfirst (by omega))
      rw [Std.TreeMap.size_erase, if_pos (Std.TreeMap.mem_iff_contains.mp (mem_of_minKey? hfirst))]
      omega

theorem Remembers.shrink {s : ReceivedMsgIds} (h : Remembers s.idsNeedAck msgId) :
    Remembers s.shrink.idsNeedAck msgId := by
  unfold ReceivedMsgIds.shrink
  apply h.eraseBegin
  omega

theorem Remembers.insert (h : Remembers ids msgId) {new : MsgId} {needAck : Bool}
    (hnew : ids.size < kIdsBufferSize ∨ ids.minKey?.getD 0 < new) :
    Remembers (ids.insert new needAck) msgId := by
  rcases h with hin | ⟨hfull, hbelow⟩
  · exact .inl (Std.TreeMap.mem_insert.mpr (.inr hin))
  · refine .inr ⟨hfull.trans Std.TreeMap.size_le_size_insert, fun k hk => ?_⟩
    rw [Std.TreeMap.mem_insert, Std.LawfulEqCmp.compare_eq_iff_eq] at hk
    rcases hk with rfl | hk
    · have hmin := hnew.resolve_left (by omega)
      cases hfirst : ids.minKey? with
      | none =>
        rw [Std.TreeMap.minKey?_eq_none_iff, Std.TreeMap.isEmpty_eq_size_eq_zero] at hfirst
        have hzero : ids.size = 0 := by simpa using hfirst
        simp [hzero, kIdsBufferSize] at hfull
      | some first =>
        rw [hfirst] at hmin
        exact UInt64.lt_trans (hbelow first (mem_of_minKey? hfirst)) hmin
    · exact hbelow k hk

/-- A remembered id is refused. -/
theorem Remembers.refused {s : ReceivedMsgIds} (h : Remembers s.idsNeedAck msgId) (needAck : Bool) :
    s.registerMsgId msgId needAck = (false, s) := by
  unfold registerMsgId
  rcases h with hin | ⟨hfull, hbelow⟩
  · rw [if_pos (Std.TreeMap.mem_iff_contains.mp hin)]
  · have hmin : ¬s.min < msgId := by
      unfold min
      cases hfirst : s.idsNeedAck.minKey? with
      | none =>
        rw [Std.TreeMap.minKey?_eq_none_iff, Std.TreeMap.isEmpty_eq_size_eq_zero] at hfirst
        have hzero : s.idsNeedAck.size = 0 := by simpa using hfirst
        simp [hzero, kIdsBufferSize] at hfull
      | some first => exact UInt64.not_lt.mpr (UInt64.le_of_lt (hbelow first (mem_of_minKey? hfirst)))
    have hold : ¬(s.idsNeedAck.size < kIdsBufferSize ∨ s.min < msgId) :=
      not_or.mpr ⟨not_lt.mpr hfull, hmin⟩
    rw [if_neg hold, ite_self]

theorem registerMsgId_accepted {s s' : ReceivedMsgIds} {needAck : Bool}
    (h : s.registerMsgId msgId needAck = (true, s')) :
    s'.idsNeedAck = s.idsNeedAck.insert msgId needAck ∧
      (s.idsNeedAck.size < kIdsBufferSize ∨ s.min < msgId) := by
  unfold registerMsgId at h
  split at h
  · cases h
  · split at h
    · next hnew =>
      cases h
      exact ⟨rfl, hnew⟩
    · cases h

theorem registerMsgId_refused {s s' : ReceivedMsgIds} {needAck : Bool}
    (h : s.registerMsgId msgId needAck = (false, s')) : s' = s := by
  unfold registerMsgId at h
  split at h
  · cases h; rfl
  · split at h <;> cases h; rfl

/-- What is remembered is not accepted again in any run. -/
theorem Remembers.notMem_accepted {s : ReceivedMsgIds} (h : Remembers s.idsNeedAck msgId)
    (ops : List Op) : msgId ∉ s.accepted ops := by
  induction ops generalizing s with
  | nil => exact List.not_mem_nil
  | cons op ops ih =>
    cases op with
    | shrink => exact ih h.shrink
    | registerMsgId new needAck =>
      rw [accepted]
      rcases hnew : s.registerMsgId new needAck with ⟨_ | _, s'⟩
      · rw [registerMsgId_refused hnew]
        exact ih h
      · obtain ⟨hids, hroom⟩ := registerMsgId_accepted hnew
        have hne : msgId ≠ new := by
          rintro rfl
          rw [h.refused needAck] at hnew
          cases hnew
        refine List.not_mem_cons_of_ne_of_not_mem hne (ih ?_)
        rw [hids]
        exact h.insert hroom

/-- No id is handled twice, in whatever order ids arrive and however many were dropped. -/
theorem accepted_nodup (ops : List Op) (s : ReceivedMsgIds) : (s.accepted ops).Nodup := by
  induction ops generalizing s with
  | nil => exact List.nodup_nil
  | cons op ops ih =>
    cases op with
    | shrink => exact ih s.shrink
    | registerMsgId msgId needAck =>
      rw [accepted]
      rcases hnew : s.registerMsgId msgId needAck with ⟨_ | _, s'⟩
      · exact ih s'
      · obtain ⟨hids, -⟩ := registerMsgId_accepted hnew
        have hthere : Remembers s'.idsNeedAck msgId := by
          left
          rw [hids, Std.TreeMap.mem_insert, Std.LawfulEqCmp.compare_eq_iff_eq]
          exact .inl rfl
        exact List.nodup_cons.mpr ⟨hthere.notMem_accepted ops, ih s'⟩

end ReceivedMsgIds

end Bettergram.Mtproto
