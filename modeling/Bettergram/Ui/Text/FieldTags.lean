import Bettergram.Foundation.DataStream
import Mathlib.Data.Int.Init

/-! # Tags of a field in the clipboard

Each tag is its place and its id. The numbers that are read back are not trusted:
they are tested against the length of the text with 32-bit sums, which can wrap.
-/

namespace Bettergram.Ui.Text.FieldTags
open Foundation DataStream

structure Tag where
  offset : Int32
  length : Int32
  id : StreamString
deriving DecidableEq

def Tag.write (tag : Tag) : List UInt8 :=
  writeInt32 tag.offset ++ writeInt32 tag.length ++ writeString tag.id

def SerializeTags (tags : List Tag) : List UInt8 :=
  if tags = [] then []
  else writeInt32 (Int32.ofNat tags.length) ++ tags.flatMap Tag.write

def readTag (d : DataStream) : Tag × DataStream :=
  let (offset, d) := d.readInt32
  let (length, d) := d.readInt32
  let (id, d) := d.readString
  (⟨offset, length, id⟩, d)

/-- The tags that are let through, and the sums that were built to test them. -/
structure Reading where
  tags : List Tag
  sums : List ℤ

/-- The sum of a tag as it is without a bound on numbers. -/
def Tag.stop (tag : Tag) : ℤ := tag.offset.toInt + tag.length.toInt

/-- The rounds of the loop that are left. -/
def readTags (textLength : Int32) : ℕ → DataStream → Reading
  | 0, _ => ⟨[], []⟩
  | rounds + 1, d =>
    let (tag, d) := readTag d
    if d.ok = false then ⟨[], []⟩
    else if tag.offset < 0 ∨ tag.length ≤ 0 then ⟨[], []⟩
    else if textLength < tag.offset + tag.length then ⟨[], [tag.stop]⟩
    else
      let rest := readTags textLength rounds d
      ⟨tag :: rest.tags, tag.stop :: rest.sums⟩

def tagCount (data : List UInt8) : Int32 := (readInt32 ⟨data, true⟩).1

def DeserializeReading (data : List UInt8) (textLength : Int32) : Reading :=
  if data = [] then ⟨[], []⟩
  else
    let (tagCount, d) := readInt32 ⟨data, true⟩
    if d.ok = false then ⟨[], []⟩
    else if tagCount ≤ 0 ∨ textLength < tagCount then ⟨[], []⟩
    else readTags textLength tagCount.toInt.toNat d

def DeserializeTags (data : List UInt8) (textLength : Int32) : List Tag :=
  (DeserializeReading data textLength).tags

/-! ## What is wanted -/

def Tag.Inside (textLength : Int32) (tag : Tag) : Prop :=
  0 ≤ tag.offset.toInt ∧ 0 < tag.length.toInt ∧ tag.stop ≤ textLength.toInt

instance (textLength : Int32) (tag : Tag) : Decidable (tag.Inside textLength) :=
  inferInstanceAs (Decidable (_ ∧ _))

/-- The tags are inside the text, and no sum wraps. -/
structure Reading.Safe (textLength : Int32) (r : Reading) : Prop where
  inside : ∀ tag ∈ r.tags, tag.Inside textLength
  sums : ∀ sum ∈ r.sums, -2 ^ 31 ≤ sum ∧ sum < 2 ^ 31

/-- All tags that the data has, up to a number of them. -/
def storedFrom : ℕ → DataStream → List Tag
  | 0, _ => []
  | rounds + 1, d =>
    let (tag, d) := readTag d
    if d.ok = false then [] else tag :: storedFrom rounds d

def storedTags (data : List UInt8) : List Tag :=
  storedFrom (tagCount data).toInt.toNat (readInt32 ⟨data, true⟩).2

/-- A place and a length that are not negative, with a sum that does not fit. -/
def Tag.TooFar (tag : Tag) : Prop :=
  0 ≤ tag.offset.toInt ∧ 0 < tag.length.toInt ∧ 2 ^ 31 ≤ tag.stop

/-- A tag that is too far behind tags that are all inside. -/
def FirstTooFar (textLength : Int32) (tags : List Tag) : Prop :=
  ∃ before tag after, tags = before ++ tag :: after ∧
    (∀ inner ∈ before, inner.Inside textLength) ∧ tag.TooFar

/-! ## A round of the loop -/

theorem stop_lt (tag : Tag) : -2 ^ 32 ≤ tag.stop ∧ tag.stop < 2 ^ 32 := by
  have hoffset := tag.offset.toInt_lt
  have hlength := tag.length.toInt_lt
  have hoffset' := tag.offset.le_toInt
  have hlength' := tag.length.le_toInt
  rw [Tag.stop]
  omega

theorem toInt_add_of_lt {tag : Tag} (hlow : 0 ≤ tag.stop) (hhigh : tag.stop < 2 ^ 31) :
    (tag.offset + tag.length).toInt = tag.stop := by
  rw [Int32.toInt_add, ← Tag.stop]
  exact Int.bmod_eq_of_le (by omega) (by omega)

theorem toInt_add_of_le {tag : Tag} (hlow : 2 ^ 31 ≤ tag.stop) :
    (tag.offset + tag.length).toInt < 0 := by
  have hlt := (stop_lt tag).2
  rw [Int32.toInt_add, ← Tag.stop, Int.bmod_def]
  omega

/-- What the tests of a tag decide, when the sum does not wrap. -/
theorem tests_iff {textLength : Int32} {tag : Tag} (h : ¬tag.TooFar) :
    ¬(tag.offset < 0 ∨ tag.length ≤ 0) ∧ ¬textLength < tag.offset + tag.length ↔
      tag.Inside textLength := by
  rw [Tag.TooFar] at h
  rw [Tag.Inside, Int32.lt_iff_toInt_lt, Int32.le_iff_toInt_le, Int32.lt_iff_toInt_lt,
    Int32.toInt_zero]
  constructor
  · rintro ⟨hpos, hsum⟩
    have hstop : 0 ≤ tag.stop := by
      rw [Tag.stop]
      omega
    rw [toInt_add_of_lt hstop (by omega)] at hsum
    omega
  · rintro ⟨hoffset, hlength, hstop⟩
    have hlow : 0 ≤ tag.stop := by
      rw [Tag.stop]
      omega
    rw [toInt_add_of_lt hlow (by omega)]
    omega


theorem firstTooFar_cons {textLength : Int32} {tag : Tag} {tags : List Tag} :
    FirstTooFar textLength (tag :: tags) ↔
      tag.TooFar ∨ (tag.Inside textLength ∧ FirstTooFar textLength tags) := by
  constructor
  · rintro ⟨before, far, after, htags, hbefore, hfar⟩
    cases before with
    | nil =>
      rw [List.nil_append, List.cons.injEq] at htags
      exact .inl (htags.1 ▸ hfar)
    | cons inner before =>
      rw [List.cons_append, List.cons.injEq] at htags
      obtain ⟨rfl, rfl⟩ := htags
      rw [List.forall_mem_cons] at hbefore
      exact .inr ⟨hbefore.1, before, far, after, rfl, hbefore.2, hfar⟩
  · rintro (hfar | ⟨hinside, before, far, after, rfl, hbefore, hfar⟩)
    · exact ⟨[], tag, tags, rfl, by simp, hfar⟩
    · exact ⟨tag :: before, far, after, rfl, List.forall_mem_cons.mpr ⟨hinside, hbefore⟩, hfar⟩

theorem not_firstTooFar_nil (textLength : Int32) : ¬FirstTooFar textLength [] := by
  rintro ⟨before, tag, after, htags, -⟩
  simp at htags

theorem safe_nil (textLength : Int32) : Reading.Safe textLength ⟨[], []⟩ := ⟨by simp, by simp⟩

/-- The sum of a tag that passes the first test fits, or the tag is too far. -/
theorem stop_fits {tag : Tag} (hfar : ¬tag.TooFar) (hpos : ¬(tag.offset < 0 ∨ tag.length ≤ 0)) :
    -2 ^ 31 ≤ tag.stop ∧ tag.stop < 2 ^ 31 := by
  rw [Int32.lt_iff_toInt_lt, Int32.le_iff_toInt_le, Int32.toInt_zero] at hpos
  rw [Tag.TooFar] at hfar
  have hlow : 0 ≤ tag.stop := by
    rw [Tag.stop]
    omega
  omega

theorem safe_cons_iff {textLength : Int32} {tag : Tag} {r : Reading}
    (hinside : tag.Inside textLength) (hfits : -2 ^ 31 ≤ tag.stop ∧ tag.stop < 2 ^ 31) :
    Reading.Safe textLength ⟨tag :: r.tags, tag.stop :: r.sums⟩ ↔ r.Safe textLength :=
  ⟨fun h => ⟨fun t ht => h.inside t (List.mem_cons_of_mem _ ht), fun s hs =>
      h.sums s (List.mem_cons_of_mem _ hs)⟩,
    fun h => ⟨List.forall_mem_cons.mpr ⟨hinside, h.inside⟩,
      List.forall_mem_cons.mpr ⟨hfits, h.sums⟩⟩⟩

/-- The loop is safe up to the first tag that is too far. -/
theorem readTags_safe_iff (textLength : Int32) (rounds : ℕ) (d : DataStream) :
    (readTags textLength rounds d).Safe textLength ↔
      ¬FirstTooFar textLength (storedFrom rounds d) := by
  induction rounds generalizing d with
  | zero => exact iff_of_true (safe_nil textLength) (not_firstTooFar_nil textLength)
  | succ rounds ih =>
    rw [readTags, storedFrom]
    generalize readTag d = next
    obtain ⟨tag, d⟩ := next
    dsimp only
    by_cases hend : d.ok = false
    · rw [if_pos hend, if_pos hend]
      exact iff_of_true (safe_nil textLength) (not_firstTooFar_nil textLength)
    rw [if_neg hend, if_neg hend, firstTooFar_cons]
    by_cases hfar : tag.TooFar
    · refine iff_of_false (fun hsafe => ?_) (not_not.mpr (.inl hfar))
      have hpos : ¬(tag.offset < 0 ∨ tag.length ≤ 0) := by
        rw [Int32.lt_iff_toInt_lt, Int32.le_iff_toInt_le, Int32.toInt_zero]
        have := hfar.1
        have := hfar.2.1
        omega
      rw [if_neg hpos] at hsafe
      have hsum := hsafe.sums tag.stop (by split <;> simp)
      exact absurd hfar.2.2 (not_le.mpr hsum.2)
    · have htests : _ ↔ tag.Inside textLength := tests_iff hfar
      by_cases hinside : tag.Inside textLength
      · obtain ⟨hpos, hsum⟩ := htests.mpr hinside
        rw [if_neg hpos, if_neg hsum, safe_cons_iff hinside (stop_fits hfar hpos), ih]
        simp [hfar, hinside]
      · refine iff_of_true ?_ (by simp [hfar, hinside])
        split_ifs with hpos hsum
        · exact safe_nil textLength
        · exact ⟨by simp, List.forall_mem_singleton.mpr (stop_fits hfar hpos)⟩
        · exact absurd (htests.mp ⟨hpos, hsum⟩) hinside

/-- What is let through is inside the text, and no sum wraps, exactly when no stored tag is too far
behind tags that are inside. -/
theorem deserialize_safe_iff (data : List UInt8) (textLength : Int32) :
    (DeserializeReading data textLength).Safe textLength ↔
      ¬(tagCount data ≤ textLength ∧ FirstTooFar textLength (storedTags data)) := by
  have hsmall : tagCount data ≤ 0 →
      ¬(tagCount data ≤ textLength ∧ FirstTooFar textLength (storedTags data)) := by
    rintro hcount ⟨-, hfar⟩
    rw [Int32.le_iff_toInt_le, Int32.toInt_zero, ← Int.toNat_eq_zero] at hcount
    rw [storedTags, hcount] at hfar
    exact not_firstTooFar_nil textLength hfar
  rw [DeserializeReading]
  by_cases hempty : data = []
  · rw [if_pos hempty]
    refine iff_of_true (safe_nil textLength) (hsmall ?_)
    rw [hempty]
    decide
  rw [if_neg hempty]
  dsimp only
  obtain ⟨count, rest, -, hread⟩ | ⟨-, hread⟩ := readInt32_cases ⟨data, true⟩
  · have hcount : tagCount data = count := by rw [tagCount, hread]
    have hstored : storedTags data = storedFrom count.toInt.toNat ⟨rest, true⟩ := by
      rw [storedTags, hcount, hread]
    rw [hread]
    dsimp only
    rw [if_neg (by simp), hcount, hstored]
    rw [hcount, hstored] at hsmall
    by_cases hbad : count ≤ 0 ∨ textLength < count
    · rw [if_pos hbad]
      refine iff_of_true (safe_nil textLength) ?_
      obtain hzero | hmany := hbad
      · exact hsmall hzero
      · exact fun h => absurd h.1 (Int32.not_le.mpr hmany)
    · have hle : count ≤ textLength := Int32.not_lt.mp fun h => hbad (.inr h)
      rw [if_neg hbad, readTags_safe_iff]
      simp [hle]
  · have hcount : tagCount data ≤ 0 := by
      rw [tagCount, hread]
      decide
    rw [hread]
    dsimp only
    rw [if_pos rfl]
    exact iff_of_true (safe_nil textLength) (hsmall hcount)

/-! ## A round trip -/

@[simp] theorem readTag_write (tag : Tag) (rest : List UInt8) (ok : Bool) :
    readTag ⟨tag.write ++ rest, ok⟩ = (tag, ⟨rest, ok⟩) := by
  simp only [readTag, Tag.write, List.append_assoc, readInt32_write, readString_write]

theorem readTags_write {textLength : Int32} {tags : List Tag}
    (hinside : ∀ tag ∈ tags, tag.Inside textLength) (rest : List UInt8) :
    (readTags textLength tags.length ⟨tags.flatMap Tag.write ++ rest, true⟩).tags = tags := by
  induction tags with
  | nil => rfl
  | cons tag tags ih =>
    rw [List.forall_mem_cons] at hinside
    have hnear : ¬tag.TooFar := by
      intro hfar
      have := textLength.toInt_lt
      have := hfar.2.2
      have := hinside.1.2.2
      omega
    obtain ⟨hpos, hsum⟩ := (tests_iff hnear).mpr hinside.1
    rw [List.flatMap_cons, List.append_assoc, List.length_cons, readTags, readTag_write]
    dsimp only
    rw [if_neg (by simp), if_neg hpos, if_neg hsum, ih hinside.2]

theorem deserialize_serialize {textLength : Int32} {tags : List Tag}
    (hinside : ∀ tag ∈ tags, tag.Inside textLength) (hcount : (tags.length : ℤ) ≤ textLength.toInt) :
    DeserializeTags (SerializeTags tags) textLength = tags := by
  by_cases hempty : tags = []
  · rw [hempty]
    rfl
  have hlength : 0 < tags.length := List.length_pos_iff.mpr hempty
  have hlt := textLength.toInt_lt
  have hsize : (Int32.ofNat tags.length).toInt = tags.length := Int32.toInt_ofNat_of_lt (by omega)
  have hdata : writeInt32 (Int32.ofNat tags.length) ++ tags.flatMap Tag.write ≠ [] := by
    intro h
    have := congrArg List.length h
    simp at this
  have hcountOk : ¬(Int32.ofNat tags.length ≤ 0 ∨ textLength < Int32.ofNat tags.length) := by
    rw [Int32.le_iff_toInt_le, Int32.lt_iff_toInt_lt, hsize, Int32.toInt_zero]
    omega
  rw [SerializeTags, if_neg hempty, DeserializeTags, DeserializeReading, if_neg hdata,
    readInt32_write]
  dsimp only
  rw [if_neg (by simp), if_neg hcountOk, hsize, Int.toNat_natCast]
  have hread := readTags_write hinside []
  rwa [List.append_nil] at hread

theorem fieldTags_survive (textLength : Int32) (tags : List Tag) (data : List UInt8) :
    ((∀ tag ∈ tags, tag.Inside textLength) → (tags.length : ℤ) ≤ textLength.toInt →
      DeserializeTags (SerializeTags tags) textLength = tags) ∧
      ((DeserializeReading data textLength).Safe textLength ↔
        ¬(tagCount data ≤ textLength ∧ FirstTooFar textLength (storedTags data))) :=
  ⟨deserialize_serialize, deserialize_safe_iff data textLength⟩

theorem fieldTags_survive_two :
    DeserializeTags (SerializeTags [⟨0, 2, none⟩, ⟨2, 3, some ⟨[0x62], by decide⟩⟩]) 5 =
        [⟨0, 2, none⟩, ⟨2, 3, some ⟨[0x62], by decide⟩⟩] ∧
      (DeserializeReading [0, 0, 0, 1] 5).Safe 5 :=
  have hstored : storedTags [0, 0, 0, 1] = [] := by decide
  have hsurvive := fieldTags_survive 5 [⟨0, 2, none⟩, ⟨2, 3, some ⟨[0x62], by decide⟩⟩] [0, 0, 0, 1]
  ⟨hsurvive.1 (by decide) (by decide),
    hsurvive.2.mpr fun h => not_firstTooFar_nil 5 (hstored ▸ h.2)⟩

/-- A tag from the last place that a number can name is let through into a text of five
characters. -/
theorem fieldTags_far : ∃ (data : List UInt8) (textLength : Int32),
    ¬(DeserializeReading data textLength).Safe textLength ∧
      ∃ tag ∈ DeserializeTags data textLength, textLength.toInt < tag.stop := by
  refine ⟨[0, 0, 0, 1, 0x7F, 0xFF, 0xFF, 0xFF, 0, 0, 0, 1, 0, 0, 0, 0], 5, ?_,
    ⟨0x7FFFFFFF, 1, some ⟨[], by decide⟩⟩, by decide, by decide⟩
  intro h
  have := h.sums (2 ^ 31) (by decide)
  omega

end Bettergram.Ui.Text.FieldTags
