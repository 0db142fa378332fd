import Mathlib.Data.List.Basic

/-! # Replies that are not encrypted

The header of a reply tells the length of the answer in bytes, and the span that
is handed to the reading counts ints. What is read of the scheme is a sequence
of ints, each after a check that the end of the span is not reached.
-/

namespace Bettergram.Mtproto

/-- A part of a buffer, counted in ints. -/
structure IntSpan where
  offset : ℕ
  count : ℕ
deriving DecidableEq, Repr

/-- The length of the answer, as the header has it. -/
def answerLen (buffer : List UInt32) : ℕ := (buffer.getD 4 0).toNat

/-- The empty span is a refused reply. -/
def parseNotSecureResponse (buffer : List UInt32) : IntSpan :=
  let len := buffer.length
  if len < 6 then ⟨0, 0⟩
  else if buffer.getD 0 0 ≠ 0 ∨ buffer.getD 1 0 ≠ 0 ∨ buffer.getD 2 0 &&& 0x03 ≠ 1 then ⟨0, 0⟩
  else if answerLen buffer < 1 ∨ (len - 5) * 4 < answerLen buffer then ⟨0, 0⟩
  else ⟨5, answerLen buffer⟩

/-- How a response is read: it is there, or it takes one more int. -/
inductive Reading (R : Type*) where
  | done (response : R)
  | next (go : UInt32 → Reading R)

/-- `failed` is an exception, or a `false` result. -/
inductive ReadOutcome (R : Type*) where
  | response (response : R)
  | failed
  | pastTheData

namespace Reading

variable {R : Type*}

/-- `last` is the end of the span. -/
def read (buffer : List UInt32) (last : ℕ) : ℕ → Reading R → ReadOutcome R
  | _, .done response => .response response
  | place, .next go =>
    if last < place + 1 then .failed
    else
      match buffer[place]? with
      | none => .pastTheData
      | some v => (go v).read buffer last (place + 1)

def readSpan (buffer : List UInt32) (span : IntSpan) (reading : Reading R) : ReadOutcome R :=
  if span.count = 0 then .failed
  else reading.read buffer (span.offset + span.count) span.offset

end Reading

variable {R : Type*}

def readPQFakeReply (reading : Reading R) (buffer : List UInt32) : ReadOutcome R :=
  reading.readSpan buffer (parseNotSecureResponse buffer)

/-- The outcome, with what is left of the received replies. -/
def readNotSecureResponse (reading : Reading R) :
    List (List UInt32) → ReadOutcome R × List (List UInt32)
  | [] => (.failed, [])
  | buffer :: received => (reading.readSpan buffer (parseNotSecureResponse buffer), received)

/-! ## What is within bounds -/

/-- The checks of the header let the reply through. -/
structure Accepted (buffer : List UInt32) : Prop where
  len : 6 ≤ buffer.length
  start : buffer.getD 0 0 = 0 ∧ buffer.getD 1 0 = 0 ∧ buffer.getD 2 0 &&& 0x03 = 1
  answerLen_pos : 1 ≤ answerLen buffer
  answerLen_le : answerLen buffer ≤ (buffer.length - 5) * 4

/-- A span that is not empty is inside the buffer, and with ints of the given size its length is
the declared one. -/
def WithinBounds (size : ℕ) (buffer : List UInt32) : Prop :=
  let span := parseNotSecureResponse buffer
  span.count ≠ 0 → span.offset + span.count ≤ buffer.length ∧ size * span.count = answerLen buffer

variable {buffer : List UInt32}

theorem parseNotSecureResponse_of_accepted (h : Accepted buffer) :
    parseNotSecureResponse buffer = ⟨5, answerLen buffer⟩ := by
  have hstart : ¬(buffer.getD 0 0 ≠ 0 ∨ buffer.getD 1 0 ≠ 0 ∨ buffer.getD 2 0 &&& 0x03 ≠ 1) := by
    simpa [not_or] using h.start
  have hlen := h.len
  have hpos := h.answerLen_pos
  have hle := h.answerLen_le
  simp only [parseNotSecureResponse]
  rw [if_neg (by omega), if_neg hstart, if_neg (by omega)]

theorem parseNotSecureResponse_of_not_accepted (h : ¬Accepted buffer) :
    (parseNotSecureResponse buffer).count = 0 := by
  by_contra hcount
  refine h ?_
  simp only [parseNotSecureResponse] at hcount
  split at hcount
  · exact absurd rfl hcount
  · split at hcount
    · exact absurd rfl hcount
    · split at hcount
      · exact absurd rfl hcount
      · rename_i hlen hstart hanswer
        simp only [ne_eq, not_or, not_not] at hstart
        exact ⟨by omega, hstart, by omega, by omega⟩

/-- Each int of a span that is inside the buffer is one of the buffer. -/
theorem Reading.read_inside {last : ℕ} (hlast : last ≤ buffer.length) (reading : Reading R)
    (place : ℕ) : reading.read buffer last place ≠ .pastTheData := by
  induction reading generalizing place with
  | done response => simp [Reading.read]
  | next go ih =>
    rw [Reading.read]
    split
    · simp
    · rename_i hplace
      rw [List.getElem?_eq_getElem (by omega : place < buffer.length)]
      exact ih _ (place + 1)

theorem Reading.readSpan_inside {size : ℕ} (h : WithinBounds size buffer) (reading : Reading R) :
    reading.readSpan buffer (parseNotSecureResponse buffer) ≠ .pastTheData := by
  rw [Reading.readSpan]
  split
  · simp
  · rename_i hcount
    exact Reading.read_inside (h hcount).1 reading _

theorem withinBounds_iff {size : ℕ} :
    WithinBounds size buffer ↔
      (Accepted buffer → answerLen buffer + 5 ≤ buffer.length ∧ size = 1) := by
  by_cases h : Accepted buffer
  · have hpos := h.answerLen_pos
    simp only [WithinBounds, parseNotSecureResponse_of_accepted h, h, forall_const]
    have hsize : size * answerLen buffer = answerLen buffer ↔ size = 1 := by
      conv_lhs => rhs; rw [← Nat.one_mul (answerLen buffer)]
      exact Nat.mul_left_inj (by omega)
    rw [hsize]
    omega
  · exact iff_of_true (fun hcount => absurd (parseNotSecureResponse_of_not_accepted h) hcount)
      fun haccepted => absurd haccepted h

/-- Counted in ints the span is the declared one, and what reads it stays inside the buffer, exactly
when an accepted reply declares at most the number of ints behind its header; counted in bytes it is
never the declared one. -/
theorem parseNotSecureResponse_within_iff (buffer : List UInt32) :
    ((WithinBounds 1 buffer ∧ ∀ (reading : Reading R) (received : List (List UInt32)),
        readPQFakeReply reading buffer ≠ .pastTheData ∧
          (readNotSecureResponse reading (buffer :: received)).1 ≠ .pastTheData) ↔
      (Accepted buffer → answerLen buffer + 5 ≤ buffer.length)) ∧
    (WithinBounds 4 buffer ↔ ¬Accepted buffer) := by
  refine ⟨⟨fun h haccepted => (withinBounds_iff.mp h.1 haccepted).1, fun h => ?_⟩, ?_⟩
  · have hwithin : WithinBounds 1 buffer :=
      withinBounds_iff.mpr fun haccepted => ⟨h haccepted, rfl⟩
    exact ⟨hwithin, fun reading _ =>
      ⟨reading.readSpan_inside hwithin, reading.readSpan_inside hwithin⟩⟩
  · rw [withinBounds_iff]
    exact ⟨fun h haccepted => absurd (h haccepted).2 (by decide), fun h haccepted =>
      absurd haccepted h⟩

/-- One int of answer, declared as four bytes, is a span of four ints. -/
theorem parseNotSecureResponse_four_bytes :
    Accepted [0, 0, 1, 0, 4, 7] ∧ ¬WithinBounds 1 [0, 0, 1, 0, 4, 7] ∧
      readPQFakeReply (.next fun _ => .next fun v => .done v) [0, 0, 1, 0, 4, 7] =
        .pastTheData := by
  have haccepted : Accepted [0, 0, 1, 0, 4, 7] :=
    ⟨by decide, by decide, by decide, by decide⟩
  refine ⟨haccepted, fun h => ?_, rfl⟩
  have hle := (withinBounds_iff.mp h haccepted).1
  exact absurd hle (by decide)

end Bettergram.Mtproto
