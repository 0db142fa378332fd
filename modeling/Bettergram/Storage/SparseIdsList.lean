import Bettergram.Foundation.FlatSet
import Mathlib.Data.Finset.Max
import Mathlib.Data.Int.Order.Basic

/-! # The sparse list of message ids

What is known of a long list are slices: ranges in which all messages are
known. Adding a range unites every slice it meets, so the slices never touch.
-/

namespace Bettergram.Storage
open Foundation

abbrev MsgId := ℤ

def ServerMaxMsgId : MsgId := 0x3FFFFFFF

/-- Both ends belong to the range. -/
structure MsgRange where
  fromId : MsgId := 0
  till : MsgId := 0
  deriving DecidableEq

instance : Membership MsgId MsgRange := ⟨fun range id => range.fromId ≤ id ∧ id ≤ range.till⟩

theorem MsgRange.mem_iff {range : MsgRange} {id : MsgId} :
    id ∈ range ↔ range.fromId ≤ id ∧ id ≤ range.till := Iff.rfl

structure Slice where
  messages : Finset MsgId
  range : MsgRange
  deriving DecidableEq

namespace Slice

/-- The order of slices in their set. -/
def lt (a b : Slice) : Prop := a.range.fromId < b.range.fromId

instance : DecidableRel Slice.lt := fun _ _ => inferInstanceAs (Decidable (_ < _))

/-- `none` is a failed `Expects`. -/
def merge (moreMessages : Finset MsgId) (moreNoSkipRange : MsgRange) (s : Slice) : Option Slice :=
  if moreNoSkipRange.fromId ≤ s.range.till ∧ s.range.fromId ≤ moreNoSkipRange.till then
    some {
      messages := s.messages ∪ moreMessages
      range := {
        fromId := min s.range.fromId moreNoSkipRange.fromId
        till := max s.range.till moreNoSkipRange.till } }
  else none

end Slice

structure AddResult where
  inslice : ℤ := 0
  added : ℤ := 0

structure SparseIdsSliceUpdate where
  messages : Finset MsgId
  range : MsgRange
  count : Option ℤ

structure SparseIdsList where
  count : Option ℤ := none
  slices : List Slice := []

namespace SparseIdsList

/-- Merges the next slices into the one at `uniteFrom`. -/
def mergeNext (uniteFrom : ℕ) : ℕ → ℕ → List Slice → Option (List Slice)
  | 0, _, slices => some slices
  | n + 1, it, slices => do
    let next ← slices[it]?
    let slices ← modify Slice.lt uniteFrom (Slice.merge next.messages next.range) slices
    mergeNext uniteFrom n (it + 1) slices

def uniteAndAdd (uniteFrom uniteTill : ℕ) (messages : List MsgId) (noSkipRange : MsgRange)
    (slices : List Slice) : Option (Slice × AddResult × List Slice) := do
  let was := (← slices[uniteFrom]?).messages.card
  let slices ← modify Slice.lt uniteFrom (Slice.merge messages.toFinset noSkipRange) slices
  let firstToErase := uniteFrom + 1
  let slices ← mergeNext uniteFrom (uniteTill - firstToErase) firstToErase slices
  let slices := slices.take firstToErase ++ slices.drop uniteTill
  let slice ← slices[uniteFrom]?
  let count := slice.messages.card
  some (slice, { inslice := count, added := count - was }, slices)

def addRangeItemsAndCountNew (messages : List MsgId) (noSkipRange : MsgRange)
    (slices : List Slice) : Option (Slice × AddResult × List Slice) :=
  if noSkipRange.fromId ≤ noSkipRange.till then
    let uniteFrom := lowerBound (fun s : Slice => s.range.till < noSkipRange.fromId) slices
    let uniteTill := lowerBound (fun s : Slice => s.range.fromId ≤ noSkipRange.till) slices
    if uniteFrom < uniteTill then uniteAndAdd uniteFrom uniteTill messages noSkipRange slices
    else
      let slice : Slice := { messages := messages.toFinset, range := noSkipRange }
      let count := slice.messages.card
      some (slice, { inslice := count, added := count }, emplace Slice.lt slice slices)
  else none

/-- The update that is fired, and the list. -/
def addRange (messages : List MsgId) (noSkipRange : MsgRange) (count : Option ℤ)
    (incrementCount : Bool) (l : SparseIdsList) : Option (SparseIdsSliceUpdate × SparseIdsList) :=
  if count.isSome ∧ incrementCount then none
  else do
    let (slice, result, slices) ← addRangeItemsAndCountNew messages noSkipRange l.slices
    let newCount :=
      if count.isSome then count
      else if incrementCount ∧ 0 < result.added then l.count.map (· + result.added)
      else l.count
    let newCount := match slices with
      | [only] => if only.range = (⟨0, ServerMaxMsgId⟩ : MsgRange) then some (only.messages.card : ℤ) else newCount
      | _ => newCount
    let newCount := newCount.map (max · result.inslice)
    some (⟨slice.messages, slice.range, newCount⟩, { count := newCount, slices := slices })

def addNew (messageId : MsgId) (l : SparseIdsList) : Option (SparseIdsSliceUpdate × SparseIdsList) :=
  l.addRange [messageId] ⟨messageId, ServerMaxMsgId⟩ none true

def addExisting (messageId : MsgId) (noSkipRange : MsgRange) (l : SparseIdsList) :
    Option (SparseIdsSliceUpdate × SparseIdsList) :=
  l.addRange [messageId] noSkipRange none false

def addSlice (messageIds : List MsgId) (noSkipRange : MsgRange) (count : Option ℤ)
    (l : SparseIdsList) : Option (SparseIdsSliceUpdate × SparseIdsList) :=
  l.addRange messageIds noSkipRange count false

def removeOne (messageId : MsgId) (l : SparseIdsList) : Option SparseIdsList :=
  let slice := lowerBound (fun s : Slice => s.range.till < messageId) l.slices
  let slices := match l.slices[slice]? with
    | none => some l.slices
    | some s =>
      if s.range.fromId ≤ messageId then
        modify Slice.lt slice (fun s => some { s with messages := s.messages.erase messageId }) l.slices
      else some l.slices
  slices.map fun slices => { slices := slices, count := l.count.map (· - 1) }

def removeAll (_ : SparseIdsList) : SparseIdsList where
  count := some 0
  slices := [{ messages := ∅, range := ⟨0, ServerMaxMsgId⟩ }]

/-- The last slice ends at its last message, or where it begins. -/
def cutTill (s : Slice) : Slice :=
  { s with range := { s.range with
    till := if h : s.messages.Nonempty then s.messages.max' h else s.range.fromId } }

def invalidateBottom (l : SparseIdsList) : Option SparseIdsList :=
  let slices := match l.slices.getLast? with
    | none => some l.slices
    | some last =>
      if last.range.till = ServerMaxMsgId then
        modify Slice.lt (l.slices.length - 1) (fun s => some (cutTill s)) l.slices
      else some l.slices
  slices.map fun slices => { slices := slices, count := none }

/-- The calls that change the list. -/
inductive Op where
  | addNew (messageId : MsgId)
  | addExisting (messageId : MsgId) (noSkipRange : MsgRange)
  | addSlice (messageIds : List MsgId) (noSkipRange : MsgRange) (count : Option ℤ)
  | removeOne (messageId : MsgId)
  | removeAll
  | invalidateBottom

def perform (op : Op) (l : SparseIdsList) : Option SparseIdsList :=
  match op with
  | .addNew messageId => (l.addNew messageId).map Prod.snd
  | .addExisting messageId noSkipRange => (l.addExisting messageId noSkipRange).map Prod.snd
  | .addSlice messageIds noSkipRange count => (l.addSlice messageIds noSkipRange count).map Prod.snd
  | .removeOne messageId => l.removeOne messageId
  | .removeAll => some l.removeAll
  | .invalidateBottom => l.invalidateBottom

def run : List Op → SparseIdsList → Option SparseIdsList
  | [], l => some l
  | op :: ops, l => do (← l.perform op).run ops

/-- The ids are inside their range, which is not empty. -/
def Op.Valid : Op → Prop
  | addNew messageId => messageId ≤ ServerMaxMsgId
  | addExisting messageId noSkipRange => messageId ∈ noSkipRange
  | addSlice messageIds noSkipRange _ =>
    noSkipRange.fromId ≤ noSkipRange.till ∧ ∀ id ∈ messageIds, id ∈ noSkipRange
  | _ => True

/-- The ids that were added and not removed since. -/
def Op.known (op : Op) (ids : Finset MsgId) : Finset MsgId :=
  match op with
  | addNew messageId => ids ∪ {messageId}
  | addExisting messageId _ => ids ∪ {messageId}
  | addSlice messageIds _ _ => ids ∪ messageIds.toFinset
  | removeOne messageId => ids.erase messageId
  | removeAll => ∅
  | invalidateBottom => ids

def known (ops : List Op) : Finset MsgId := ops.foldl (fun ids op => op.known ids) ∅

end SparseIdsList

end Bettergram.Storage

/-! ## Uniting slices

Adding a range puts one slice in place of all that it meets: it has their
messages and reaches from the first beginning to the last end. The changed slice
never moves in the set, since it still begins between its neighbours.
-/

namespace Bettergram.Storage
open Foundation

namespace Slice

theorem lt_asymm (a b : Slice) (h : a.lt b) : ¬b.lt a := not_lt.mpr (le_of_lt h)

/-- What `merge` makes when its expectations hold. -/
def unite (s t : Slice) : Slice where
  messages := s.messages ∪ t.messages
  range := {
    fromId := min s.range.fromId t.range.fromId
    till := max s.range.till t.range.till }

theorem merge_eq {s t : Slice} (hfrom : t.range.fromId ≤ s.range.till)
    (htill : s.range.fromId ≤ t.range.till) : s.merge t.messages t.range = some (s.unite t) :=
  if_pos ⟨hfrom, htill⟩

/-- One slice in place of some others and of what is added. -/
structure Merged (new : Slice) (united : List Slice) (s : Slice) : Prop where
  messages : ∀ id, id ∈ s.messages ↔ id ∈ new.messages ∨ ∃ u ∈ united, id ∈ u.messages
  fromId : ∀ id, id < s.range.fromId ↔
    id < new.range.fromId ∧ ∀ u ∈ united, id < u.range.fromId
  till : ∀ id, s.range.till < id ↔ new.range.till < id ∧ ∀ u ∈ united, u.range.till < id

theorem Merged.nil (new : Slice) : Merged new [] new :=
  ⟨by simp, by simp, by simp⟩

theorem Merged.unite {new s t : Slice} {united : List Slice} (h : Merged new united s) :
    Merged new (united ++ [t]) (s.unite t) where
  messages id := by
    simp only [Slice.unite, Finset.mem_union, h.messages, List.mem_append, List.mem_singleton,
      or_and_right, exists_or, exists_eq_left, or_assoc]
  fromId id := by
    simp only [Slice.unite, lt_min_iff, h.fromId, List.mem_append, List.mem_singleton, or_imp,
      forall_and, forall_eq, and_assoc]
  till id := by
    simp only [Slice.unite, max_lt_iff, h.till, List.mem_append, List.mem_singleton, or_imp,
      forall_and, forall_eq, and_assoc]

theorem Merged.foldl {new s : Slice} {united : List Slice} (h : Merged new united s)
    (more : List Slice) : Merged new (united ++ more) (more.foldl Slice.unite s) := by
  induction more generalizing united s with
  | nil => simpa using h
  | cons t more ih =>
    have hmore := ih (h.unite (t := t))
    rwa [List.append_assoc, List.singleton_append] at hmore

/-- The code starts from the first slice it meets and merges what is added into it. -/
theorem Merged.first (new first : Slice) : Merged new [first] (first.unite new) where
  messages id := by simp [Slice.unite, or_comm]
  fromId id := by simp [Slice.unite, and_comm]
  till id := by simp [Slice.unite, and_comm]

end Slice

namespace SparseIdsList

variable {before done todo after : List Slice} {first acc new : Slice}

theorem mergeNext_eq (hbefore : ∀ c ∈ before, c.lt acc) (hafter : ∀ c ∈ done ++ todo ++ after, acc.lt c)
    (hvalid : ∀ u ∈ todo, u.range.fromId ≤ u.range.till)
    (htouch : ∀ u ∈ todo, u.range.fromId ≤ acc.range.till) :
    mergeNext before.length todo.length (before.length + 1 + done.length)
        (before ++ acc :: (done ++ todo ++ after)) =
      some (before ++ todo.foldl Slice.unite acc :: (done ++ todo ++ after)) := by
  induction todo generalizing done acc with
  | nil => rfl
  | cons u todo ih =>
    have hlt : acc.lt u := hafter u (by simp)
    have hnext : (before ++ acc :: (done ++ u :: todo ++ after))[before.length + 1 + done.length]? =
        some u := by
      rw [List.getElem?_append_right (by omega)]
      have hindex : before.length + 1 + done.length - before.length = done.length + 1 := by omega
      rw [hindex, List.getElem?_cons_succ, List.append_assoc, List.getElem?_append_right (le_refl _)]
      simp
    -- the beginning stays, since the next slice begins later
    have hfrom : (acc.unite u).range.fromId = acc.range.fromId := min_eq_left hlt.le
    have hmerge := Slice.merge_eq (htouch u (by simp)) (hlt.le.trans (hvalid u (by simp)))
    have hmodify : modify Slice.lt before.length (Slice.merge u.messages u.range)
        (before ++ acc :: (done ++ u :: todo ++ after)) =
          some (before ++ acc.unite u :: (done ++ u :: todo ++ after)) := by
      apply modify_append Slice.lt_asymm hmerge
      · intro c hc
        exact (hbefore c hc).trans_eq hfrom.symm
      · intro c hc
        exact hfrom.trans_lt (hafter c hc)
    have hrest : mergeNext before.length todo.length (before.length + 1 + (done ++ [u]).length)
        (before ++ acc.unite u :: (done ++ [u] ++ todo ++ after)) =
          some (before ++ todo.foldl Slice.unite (acc.unite u) :: (done ++ [u] ++ todo ++ after)) := by
      apply ih
      · exact fun c hc => (hbefore c hc).trans_eq hfrom.symm
      · exact fun c hc => hfrom.trans_lt (hafter c (by simpa using hc))
      · exact fun v hv => hvalid v (by simp [hv])
      · exact fun v hv => (htouch v (by simp [hv])).trans (le_max_left _ _)
    have hlist : done ++ [u] ++ todo ++ after = done ++ u :: todo ++ after := by simp
    rw [hlist, List.length_append, List.length_singleton] at hrest
    rw [List.length_cons, mergeNext, hnext, Option.bind_eq_bind, Option.bind_some, hmodify]
    exact hrest

/-- The slices are in order and do not touch. -/
structure Ordered (slices : List Slice) : Prop where
  apart : slices.Pairwise fun a b => a.range.till < b.range.fromId
  valid : ∀ s ∈ slices, s.range.fromId ≤ s.range.till

theorem Ordered.lt {slices : List Slice} (h : Ordered slices) : slices.Pairwise Slice.lt :=
  h.apart.imp_of_mem fun ha _ hab => (h.valid _ ha).trans_lt hab

theorem uniteAndAdd_eq {messages : List MsgId} {noSkipRange : MsgRange}
    (h : Ordered (before ++ first :: todo ++ after))
    (hbefore : ∀ b ∈ before, b.range.till < noSkipRange.fromId)
    (hunited : ∀ u ∈ first :: todo, noSkipRange.fromId ≤ u.range.till ∧
      u.range.fromId ≤ noSkipRange.till) :
    ∃ s result, uniteAndAdd before.length (before.length + 1 + todo.length) messages noSkipRange
        (before ++ first :: todo ++ after) = some (s, result, before ++ s :: after) ∧
      Slice.Merged ⟨messages.toFinset, noSkipRange⟩ (first :: todo) s ∧
      result.inslice = s.messages.card ∧
      result.added = s.messages.card - first.messages.card := by
  set new : Slice := ⟨messages.toFinset, noSkipRange⟩ with hnew
  set acc := first.unite new with hacc
  obtain ⟨hfirst, htill⟩ := hunited first (by simp)
  have hlt := h.lt
  rw [List.append_assoc, List.cons_append, List.pairwise_append, List.pairwise_cons] at hlt
  obtain ⟨-, ⟨hrest, -⟩, hacross⟩ := hlt
  have hfrom : acc.range.fromId ≤ first.range.fromId := min_le_left _ _
  have hafter : ∀ c ∈ todo ++ after, acc.lt c := fun c hc => hfrom.trans_lt (hrest c hc)
  have hbeforeAcc : ∀ c ∈ before, c.lt acc := by
    intro c hc
    apply lt_min (hacross c hc first (by simp))
    exact (h.valid c (by simp [hc])).trans_lt (hbefore c hc)
  have hmodify : modify Slice.lt before.length (Slice.merge messages.toFinset noSkipRange)
      (before ++ first :: (todo ++ after)) = some (before ++ acc :: (todo ++ after)) := by
    have hmerge : first.merge new.messages new.range = some acc := Slice.merge_eq hfirst htill
    exact modify_append Slice.lt_asymm hmerge hbeforeAcc hafter
  have hnext : mergeNext before.length todo.length (before.length + 1)
      (before ++ acc :: (todo ++ after)) =
        some (before ++ todo.foldl Slice.unite acc :: (todo ++ after)) := by
    have hall : ∀ c ∈ [] ++ todo ++ after, acc.lt c := hafter
    exact mergeNext_eq hbeforeAcc hall (fun u hu => h.valid u (by simp [hu]))
      fun u hu => (hunited u (by simp [hu])).2.trans (le_max_right _ _)
  set s := todo.foldl Slice.unite acc with hs
  have hfirstAt : (before ++ first :: (todo ++ after))[before.length]? = some first := by simp
  have hsAt : (before ++ s :: after)[before.length]? = some s := by simp
  have hcount : before.length + 1 + todo.length - (before.length + 1) = todo.length := by omega
  have herase : (before ++ s :: (todo ++ after)).take (before.length + 1) ++
      (before ++ s :: (todo ++ after)).drop (before.length + 1 + todo.length) =
        before ++ s :: after := by
    have htake : (before ++ s :: (todo ++ after)).take (before.length + 1) = before ++ [s] := by
      rw [List.take_append, List.take_of_length_le (by omega)]
      simp
    have hdrop : (before ++ s :: (todo ++ after)).drop (before.length + 1 + todo.length) = after := by
      have hsplit : before ++ s :: (todo ++ after) = (before ++ [s] ++ todo) ++ after := by simp
      rw [hsplit]
      exact List.drop_left' (by simp only [List.length_append, List.length_singleton])
    rw [htake, hdrop, List.append_assoc, List.singleton_append]
  refine ⟨s, ⟨s.messages.card, s.messages.card - first.messages.card⟩, ?_,
    (Slice.Merged.first new first).foldl todo, rfl, rfl⟩
  rw [List.append_assoc, List.cons_append, uniteAndAdd, hfirstAt]
  simp only [Option.bind_eq_bind, Option.bind_some, hmodify, hcount, hnext, herase, hsAt]

/-- Adding a range puts one slice in place of those it meets. -/
theorem addRangeItemsAndCountNew_spec {slices : List Slice} (messages : List MsgId)
    {noSkipRange : MsgRange} (h : Ordered slices)
    (hrange : noSkipRange.fromId ≤ noSkipRange.till) :
    ∃ before united after s result, slices = before ++ united ++ after ∧
      (∀ b ∈ before, b.range.till < noSkipRange.fromId) ∧
      (∀ a ∈ after, noSkipRange.till < a.range.fromId) ∧
      (∀ u ∈ united, noSkipRange.fromId ≤ u.range.till ∧ u.range.fromId ≤ noSkipRange.till) ∧
      addRangeItemsAndCountNew messages noSkipRange slices =
        some (s, result, before ++ s :: after) ∧
      Slice.Merged ⟨messages.toFinset, noSkipRange⟩ united s ∧
      result.inslice = s.messages.card ∧
      result.added = s.messages.card - (united.head?.elim 0 fun first => first.messages.card) := by
  set p : Slice → Bool := fun s => s.range.till < noSkipRange.fromId with hp
  set q : Slice → Bool := fun s => s.range.fromId ≤ noSkipRange.till with hq
  set before := slices.takeWhile p with hbefore
  set rest := slices.dropWhile p with hrest
  set united := rest.takeWhile q with hunited
  set after := rest.dropWhile q with hafter
  have hsplit : slices = before ++ united ++ after := by
    rw [List.append_assoc, hunited, hafter, List.takeWhile_append_dropWhile, hbefore, hrest,
      List.takeWhile_append_dropWhile]
  have hbeforeTill : ∀ b ∈ before, b.range.till < noSkipRange.fromId := by
    intro b hb
    simpa [hp] using List.mem_takeWhile_imp hb
  have hrestTill : ∀ u ∈ rest, noSkipRange.fromId ≤ u.range.till := by
    have hlost : slices.Pairwise fun a b => p b → p a := by
      refine h.apart.imp_of_mem fun {a b} _ hb hab hpb => ?_
      have hpb' : b.range.till < noSkipRange.fromId := by simpa [hp] using hpb
      have hvalid := h.valid b hb
      simp only [hp, decide_eq_true_eq]
      exact hab.trans (hvalid.trans_lt hpb')
    intro u hu
    have hu' := not_of_mem_dropWhile hlost u hu
    simpa [hp] using hu'
  have hunitedFrom : ∀ u ∈ united, u.range.fromId ≤ noSkipRange.till := by
    intro u hu
    simpa [hq] using List.mem_takeWhile_imp hu
  have hafterFrom : ∀ a ∈ after, noSkipRange.till < a.range.fromId := by
    have hlost : rest.Pairwise fun a b => q b → q a := by
      refine (h.lt.sublist (List.dropWhile_sublist p)).imp fun {a b} hab hqb => ?_
      have hqb' : b.range.fromId ≤ noSkipRange.till := by simpa [hq] using hqb
      have hlt : a.range.fromId < b.range.fromId := hab
      simp only [hq, decide_eq_true_eq]
      exact hlt.le.trans hqb'
    intro a ha
    have ha' := not_of_mem_dropWhile hlost a ha
    simpa [hq] using ha'
  have huniteTill : lowerBound q slices = before.length + united.length := by
    have hbeforeFrom : ∀ b ∈ before, q b = true := by
      intro b hb
      have hvalid := h.valid b (by rw [hsplit]; simp [hb])
      have htill := hbeforeTill b hb
      simp only [hq, decide_eq_true_eq]
      exact hvalid.trans (htill.le.trans hrange)
    have hslices : slices = before ++ rest := by rw [hbefore, hrest, List.takeWhile_append_dropWhile]
    rw [lowerBound, hslices, List.takeWhile_append_of_pos hbeforeFrom, List.length_append]
  have huniteFrom : lowerBound p slices = before.length := rfl
  unfold addRangeItemsAndCountNew
  rw [if_pos hrange, huniteFrom, huniteTill]
  cases hcase : united with
  | nil =>
    refine ⟨before, [], after, ⟨messages.toFinset, noSkipRange⟩,
      ⟨messages.toFinset.card, messages.toFinset.card⟩, by rw [← hcase]; exact hsplit,
      hbeforeTill, hafterFrom, fun _ hu => absurd hu List.not_mem_nil, ?_, .nil _, rfl, by simp⟩
    have hemplace : emplace Slice.lt ⟨messages.toFinset, noSkipRange⟩ (before ++ after) =
        before ++ ⟨messages.toFinset, noSkipRange⟩ :: after := by
      apply emplace_append Slice.lt_asymm
      · intro b hb
        exact (h.valid b (by rw [hsplit]; simp [hb])).trans_lt (hbeforeTill b hb)
      · intro a ha
        exact hrange.trans_lt (hafterFrom a ha)
    rw [List.length_nil, Nat.add_zero, if_neg (lt_irrefl _)]
    rw [hcase, List.append_nil] at hsplit
    simp only [hsplit, hemplace]
  | cons first todo =>
    have hlength : before.length + (first :: todo).length = before.length + 1 + todo.length := by
      rw [List.length_cons]
      omega
    rw [hcase] at hsplit hunitedFrom
    have hmeets : ∀ u ∈ first :: todo, noSkipRange.fromId ≤ u.range.till ∧
        u.range.fromId ≤ noSkipRange.till := by
      intro u hu
      refine ⟨hrestTill u ?_, hunitedFrom u hu⟩
      rw [← hcase] at hu
      exact (List.takeWhile_sublist q).subset hu
    rw [hsplit] at h
    obtain ⟨s, result, hunite, hmerged, hresult⟩ := uniteAndAdd_eq h hbeforeTill hmeets
    refine ⟨before, first :: todo, after, s, result, hsplit, hbeforeTill, hafterFrom, hmeets, ?_,
      hmerged, hresult⟩
    rw [hlength, if_pos (by omega)]
    rw [← hunite, ← hsplit]

end SparseIdsList

end Bettergram.Storage
