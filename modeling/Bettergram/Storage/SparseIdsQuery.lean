import Bettergram.Storage.SparseIdsCount
import Mathlib.Order.Interval.Finset.Nat

/-! # Queries

A query is answered from the slice that covers its id: the ids around it, and how many are
skipped on each side. Where the slice has no end, the skipped ones come from the count.
-/

namespace Bettergram.Storage
open Foundation

structure SparseIdsListQuery where
  aroundId : MsgId
  limitBefore : ℕ
  limitAfter : ℕ

structure SparseIdsListResult where
  count : Option ℤ := none
  skippedBefore : Option ℤ := none
  skippedAfter : Option ℤ := none
  messageIds : Finset MsgId := ∅
  deriving DecidableEq

/-- Where an id stands, or would stand, in the sorted set. -/
def position (messages : Finset MsgId) (id : MsgId) : ℕ := (messages.filter (· < id)).card

namespace SparseIdsList

variable {messages ids : Finset MsgId} {l : SparseIdsList}

/-- With a count, the side whose end is unknown has what the other one leaves. -/
def tell (count skippedBefore skippedAfter : Option ℤ) (messageIds : Finset MsgId) :
    SparseIdsListResult :=
  match count, skippedBefore, skippedAfter with
  | some count, none, some after =>
    ⟨some count, some (count - after - messageIds.card), some after, messageIds⟩
  | some count, some before, none =>
    ⟨some count, some before, some (count - before - messageIds.card), messageIds⟩
  | count, before, after => ⟨count, before, after, messageIds⟩

def queryFromSlice (query : SparseIdsListQuery) (slice : Slice) (l : SparseIdsList) :
    SparseIdsListResult :=
  let haveBefore := position slice.messages query.aroundId
  let haveEqualOrAfter := slice.messages.card - haveBefore
  let before := min haveBefore query.limitBefore
  let equalOrAfter := min haveEqualOrAfter (query.limitAfter + 1)
  let messageIds := slice.messages.filter fun id =>
    haveBefore - before ≤ position slice.messages id ∧
      position slice.messages id < haveBefore + equalOrAfter
  let skippedBefore : Option ℤ :=
    if slice.range.fromId = 0 then some (haveBefore - before) else none
  let skippedAfter : Option ℤ :=
    if slice.range.till = ServerMaxMsgId then some (haveEqualOrAfter - equalOrAfter) else none
  tell l.count skippedBefore skippedAfter messageIds

/-- What is put to the consumer. -/
def query (query : SparseIdsListQuery) (l : SparseIdsList) : Option SparseIdsListResult :=
  let slice :=
    if query.aroundId = 0 then none
    else l.slices[lowerBound (fun s : Slice => s.range.till < query.aroundId) l.slices]?
  match slice.filter fun s => s.range.fromId ≤ query.aroundId with
  | some s => some (l.queryFromSlice query s)
  | none => l.count.map fun count => { count := some count }

theorem position_le_card (messages : Finset MsgId) (id : MsgId) :
    position messages id ≤ messages.card := Finset.card_le_card (Finset.filter_subset _ _)

theorem position_mono (messages : Finset MsgId) {a b : MsgId} (h : a ≤ b) :
    position messages a ≤ position messages b :=
  Finset.card_le_card (Finset.monotone_filter_right _ fun _ _ hlt => lt_of_lt_of_le hlt h)

/-- A message takes its place from those behind it. -/
theorem position_lt {a b : MsgId} (ha : a ∈ messages) (h : a < b) :
    position messages a < position messages b := by
  refine Finset.card_lt_card (Finset.ssubset_iff_of_subset ?_ |>.mpr ⟨a, ?_, ?_⟩)
  · exact Finset.monotone_filter_right _ fun _ _ hlt => hlt.trans h
  · exact Finset.mem_filter.mpr ⟨ha, h⟩
  · exact fun hmem => lt_irrefl a (Finset.mem_filter.mp hmem).2

theorem position_lt_iff {id around : MsgId} (hid : id ∈ messages) :
    position messages id < position messages around ↔ id < around :=
  ⟨fun h => not_le.mp fun hle => absurd (position_mono messages hle) (not_le.mpr h),
    position_lt hid⟩

theorem position_lt_card {id : MsgId} (hid : id ∈ messages) :
    position messages id < messages.card :=
  Finset.card_lt_card (Finset.ssubset_iff_of_subset (Finset.filter_subset _ _) |>.mpr
    ⟨id, hid, fun hmem => lt_irrefl id (Finset.mem_filter.mp hmem).2⟩)

theorem injOn_position {s : Set MsgId} (hs : s ⊆ messages) : Set.InjOn (position messages) s := by
  intro a ha b hb heq
  obtain hlt | rfl | hlt := lt_trichotomy a b
  · exact absurd heq (position_lt (hs ha) hlt).ne
  · rfl
  · exact absurd heq (position_lt (hs hb) hlt).ne'

/-- The messages stand at the places from zero on. -/
theorem image_position (messages : Finset MsgId) :
    messages.image (position messages) = Finset.range messages.card := by
  refine Finset.eq_of_subset_of_card_le (fun k hk => ?_) ?_
  · obtain ⟨id, hid, rfl⟩ := Finset.mem_image.mp hk
    exact Finset.mem_range.mpr (position_lt_card hid)
  · rw [Finset.card_range, Finset.card_image_of_injOn (injOn_position subset_rfl)]

/-- As many messages as places. -/
theorem card_filter_position (messages : Finset MsgId) {a b : ℕ} (hb : b ≤ messages.card) :
    (messages.filter fun id => a ≤ position messages id ∧ position messages id < b).card =
      b - a := by
  have hinj : Set.InjOn (position messages) (messages.filter fun id =>
      a ≤ position messages id ∧ position messages id < b) :=
    injOn_position (Finset.coe_subset.mpr (Finset.filter_subset _ _))
  rw [← Finset.card_image_of_injOn hinj, ← Nat.card_Ico]
  congr 1
  ext k
  rw [Finset.mem_image, Finset.mem_Ico]
  constructor
  · rintro ⟨id, hid, rfl⟩
    exact (Finset.mem_filter.mp hid).2
  · intro hk
    have hmem : k ∈ messages.image (position messages) := by
      rw [image_position]
      exact Finset.mem_range.mpr (hk.2.trans_le hb)
    obtain ⟨id, hid, rfl⟩ := Finset.mem_image.mp hmem
    exact ⟨id, Finset.mem_filter.mpr ⟨hid, hk⟩, rfl⟩

/-- The nearest messages below an id and at or above it, as many as the limits allow. -/
structure Nearest (messages : Finset MsgId) (query : SparseIdsListQuery) (ids : Finset MsgId) :
    Prop where
  subset : ids ⊆ messages
  before : (ids.filter (· < query.aroundId)).card =
    min (messages.filter (· < query.aroundId)).card query.limitBefore
  after : (ids.filter (query.aroundId ≤ ·)).card =
    min (messages.filter (query.aroundId ≤ ·)).card (query.limitAfter + 1)
  noneBefore : ∀ a ∈ ids, ∀ id ∈ messages, a ≤ id → id < query.aroundId → id ∈ ids
  noneAfter : ∀ b ∈ ids, ∀ id ∈ messages, query.aroundId ≤ id → id ≤ b → id ∈ ids

/-- No message between two of them is skipped. -/
theorem Nearest.between {query : SparseIdsListQuery} (h : Nearest messages query ids)
    {a b id : MsgId} (ha : a ∈ ids) (hb : b ∈ ids) (hid : id ∈ messages) (hle : a ≤ id)
    (hge : id ≤ b) : id ∈ ids :=
  (lt_or_ge id query.aroundId).elim (h.noneBefore a ha id hid hle) fun haround =>
    h.noneAfter b hb id hid haround hge


/-- The messages at the places next to where the id stands are the nearest ones. -/
theorem nearest_of_places (messages : Finset MsgId) (query : SparseIdsListQuery) :
    Nearest messages query (messages.filter fun id =>
      position messages query.aroundId - min (position messages query.aroundId) query.limitBefore ≤
          position messages id ∧
        position messages id < position messages query.aroundId +
          min (messages.card - position messages query.aroundId) (query.limitAfter + 1)) := by
  set around := position messages query.aroundId with haround
  have hle : around ≤ messages.card := position_le_card messages query.aroundId
  set before := min around query.limitBefore with hbefore
  set equalOrAfter := min (messages.card - around) (query.limitAfter + 1) with hafter
  have hrest : (messages.filter (query.aroundId ≤ ·)).card = messages.card - around := by
    have hsum := Finset.card_filter_add_card_filter_not (s := messages) (· < query.aroundId)
    simp only [not_lt] at hsum
    have hfirst : (messages.filter (· < query.aroundId)).card = around := rfl
    omega
  constructor
  · exact Finset.filter_subset _ _
  · have hplaces : (messages.filter fun id => around - before ≤ position messages id ∧
        position messages id < around + equalOrAfter).filter (· < query.aroundId) =
          messages.filter fun id => around - before ≤ position messages id ∧
            position messages id < around := by
      ext id
      simp only [Finset.mem_filter, and_assoc]
      refine and_congr_right fun hid => and_congr_right fun _ => ?_
      rw [← position_lt_iff hid]
      omega
    rw [hplaces, card_filter_position messages hle]
    change around - (around - before) = before
    omega
  · have hplaces : (messages.filter fun id => around - before ≤ position messages id ∧
        position messages id < around + equalOrAfter).filter (query.aroundId ≤ ·) =
          messages.filter fun id => around ≤ position messages id ∧
            position messages id < around + equalOrAfter := by
      ext id
      simp only [Finset.mem_filter, and_assoc]
      refine and_congr_right fun hid => ?_
      have hge : query.aroundId ≤ id ↔ around ≤ position messages id := by
        rw [← not_lt, ← position_lt_iff hid, not_lt]
      rw [hge]
      omega
    rw [hplaces, card_filter_position messages (by omega), hrest]
    omega
  · intro a ha id hid hge hlt
    rw [Finset.mem_filter] at ha ⊢
    have hmono := position_mono messages hge
    have := (position_lt_iff hid).mpr hlt
    exact ⟨hid, by omega, by omega⟩
  · intro b hb id hid hge hle
    rw [Finset.mem_filter] at hb ⊢
    have hmono := position_mono messages hle
    have := mt (position_lt_iff hid).mp (not_lt.mpr hge)
    exact ⟨hid, by omega, by omega⟩


/-- Nothing negative is skipped, and what is told adds up. -/
structure Consistent (result : SparseIdsListResult) : Prop where
  before : ∀ skipped, result.skippedBefore = some skipped → 0 ≤ skipped
  after : ∀ skipped, result.skippedAfter = some skipped → 0 ≤ skipped
  sum : ∀ count before after, result.count = some count → result.skippedBefore = some before →
    result.skippedAfter = some after → before + result.messageIds.card + after = count

theorem tell_messageIds (count before after : Option ℤ) (ids : Finset MsgId) :
    (tell count before after ids).messageIds = ids := by
  unfold tell
  split <;> rfl

theorem tell_count (count before after : Option ℤ) (ids : Finset MsgId) :
    (tell count before after ids).count = count := by
  unfold tell
  split <;> rfl

/-- The count has to allow for what is known to be skipped on one side. -/
theorem tell_consistent {count before after : Option ℤ}
    (hbefore : ∀ b, before = some b → 0 ≤ b ∧ ∀ n, count = some n → b + ids.card ≤ n)
    (hafter : ∀ a, after = some a → 0 ≤ a ∧ ∀ n, count = some n → a + ids.card ≤ n)
    (hsum : ∀ n b a, count = some n → before = some b → after = some a → b + ids.card + a = n) :
    Consistent (tell count before after ids) := by
  rcases count with _ | n <;> rcases before with _ | b <;> rcases after with _ | a <;>
    constructor <;> simp [tell] at * <;> omega

theorem le_of_tell_consistent {count : ℤ} {before after : Option ℤ}
    (h : Consistent (tell (some count) before after ids)) :
    (∀ b, before = some b → b + ids.card ≤ count) ∧ (∀ a, after = some a → a + ids.card ≤ count) ∧
      ∀ b a, before = some b → after = some a → b + ids.card + a = count := by
  obtain ⟨hbefore, hafter, hsum⟩ := h
  rcases before with _ | b <;> rcases after with _ | a <;> simp [tell] at * <;> omega

variable {query : SparseIdsListQuery} {slice : Slice}

theorem queryFromSlice_nearest :
    Nearest slice.messages query (l.queryFromSlice query slice).messageIds := by
  unfold queryFromSlice
  rw [tell_messageIds]
  exact nearest_of_places slice.messages query

/-- What the count has to be for a slice: no less than its messages, when it has one of the
ends, and just as many when it has both. -/
def Counted (count : Option ℤ) (slice : Slice) : Prop :=
  ∀ n, count = some n → (slice.range.fromId = 0 ∨ slice.range.till = ServerMaxMsgId →
    slice.messages.card ≤ n) ∧ (slice.range = ⟨0, ServerMaxMsgId⟩ → slice.messages.card = n)

theorem queryFromSlice_consistent (h : Counted l.count slice) :
    Consistent (l.queryFromSlice query slice) := by
  have hle := position_le_card slice.messages query.aroundId
  have hcard := card_filter_position slice.messages
    (a := position slice.messages query.aroundId -
      min (position slice.messages query.aroundId) query.limitBefore)
    (b := position slice.messages query.aroundId +
      min (slice.messages.card - position slice.messages query.aroundId) (query.limitAfter + 1))
    (by omega)
  have heta : slice.range = ⟨slice.range.fromId, slice.range.till⟩ := rfl
  unfold queryFromSlice
  simp only
  apply tell_consistent
  · intro b hb
    obtain ⟨hfrom, ⟨⟩⟩ := Option.ite_none_right_eq_some.mp hb
    refine ⟨by omega, fun n hn => ?_⟩
    have hone := (h n hn).1 (.inl hfrom)
    omega
  · intro a ha
    obtain ⟨htill, ⟨⟩⟩ := Option.ite_none_right_eq_some.mp ha
    refine ⟨by omega, fun n hn => ?_⟩
    have hone := (h n hn).1 (.inr htill)
    omega
  · intro n b a hn hb ha
    obtain ⟨hfrom, ⟨⟩⟩ := Option.ite_none_right_eq_some.mp hb
    obtain ⟨htill, ⟨⟩⟩ := Option.ite_none_right_eq_some.mp ha
    have hboth := (h n hn).2 (by rw [heta, hfrom, htill])
    omega

/-- With limits that leave nothing out, the count is told from all messages of the slice. -/
theorem counted_of_consistent {around : MsgId}
    (h : Consistent (l.queryFromSlice ⟨around, slice.messages.card, slice.messages.card⟩ slice)) :
    Counted l.count slice := by
  intro n hn
  have hle := position_le_card slice.messages around
  have hcard := card_filter_position slice.messages
    (a := position slice.messages around -
      min (position slice.messages around) slice.messages.card)
    (b := position slice.messages around +
      min (slice.messages.card - position slice.messages around) (slice.messages.card + 1))
    (by omega)
  unfold queryFromSlice at h
  simp only [hn] at h
  obtain ⟨hbefore, hafter, hsum⟩ := le_of_tell_consistent h
  constructor
  · rintro (hfrom | htill)
    · have := hbefore _ (if_pos hfrom)
      omega
    · have := hafter _ (if_pos htill)
      omega
  · intro hrange
    have := hsum _ _ (if_pos (by rw [hrange])) (if_pos (by rw [hrange]))
    omega

end SparseIdsList

end Bettergram.Storage
