import Bettergram.Foundation.LittleEndian
import Bettergram.Foundation.FlatSet
import Mathlib.Data.List.Perm.Subperm

/-! # Slices of a streamed file

A slice holds the loaded parts of a stretch of the file, by their offsets in it.
What it holds is kept in the cache either as plain bytes from the begin on, or
as a list of parts; the length tells which.
-/

namespace Bettergram.Media.Streaming
open Foundation

abbrev Bytes := List UInt8

@[irreducible] def kPartSize : ℕ := 128 * 1024
def kPartsInSlice : ℕ := 64
@[irreducible] def kInSlice : ℕ := kPartsInSlice * kPartSize
def kMaxPartsInHeader : ℕ := 64
@[irreducible] def kMaxOnlyInHeader : ℕ := 80 * kPartSize
def kPartsOutsideFirstSliceGood : ℕ := 8
def kSlicesInMemory : ℕ := 2
def kPreloadPartsAhead : ℕ := 8
def kLoadFromRemoteMax : ℕ := 8
def kReadFromCacheMax : ℕ := 2

/-- Sorted by offset, as in the flat map. -/
abbrev Parts := List (ℕ × Bytes)

def Parts.contains (offset : ℕ) (parts : Parts) : Bool := parts.any fun part => part.1 = offset

/-- `emplace` and `try_emplace`: a part that is there stays. -/
def Parts.emplace (offset : ℕ) (bytes : Bytes) (parts : Parts) : Parts :=
  Foundation.emplace (fun a b => a.1 < b.1) (offset, bytes) parts

def IsContiguousSerialization (serializedSize maxSliceSize : ℕ) : Prop :=
  serializedSize % kPartSize = 0 ∨ serializedSize = maxSliceSize

instance (serializedSize maxSliceSize : ℕ) :
    Decidable (IsContiguousSerialization serializedSize maxSliceSize) :=
  inferInstanceAs (Decidable (_ ∨ _))

/-- The end of the parts that follow on each other from the offset on. -/
def FindNotLoadedStart : Parts → ℕ → ℕ
  | [], offset => offset
  | (partStart, bytes) :: parts, offset =>
    let partEnd := partStart + bytes.length
    if partStart ≤ offset ∧ offset ≤ partEnd then FindNotLoadedStart parts partEnd else offset

/-- The bytes that are copied to the buffer; `none` is a failed `Assert`. -/
def CopyLoaded : Parts → ℕ → ℕ → Option Bytes
  | [], _, _ => some []
  | (partStart, bytes) :: parts, filled, till =>
    let copyTill := min (partStart + bytes.length) till
    if partStart ≤ filled ∧ filled < copyTill then
      (CopyLoaded parts copyTill till).map fun rest =>
        (bytes.drop (filled - partStart)).take (copyTill - filled) ++ rest
    else none

/-- `StackIntVector::add` and the values after it. -/
def addValue (size value : ℕ) (values : List ℕ) : Bool × List ℕ :=
  if values.length < size then (true, values ++ [value]) else (false, values)

structure Slice where
  parts : Parts := []
  loadingFromCache : Bool := false
  loadedFromCache : Bool := false
  changedSinceCache : Bool := false
  deriving DecidableEq

structure PrepareFillResult where
  offsetsFromLoader : List ℕ := []
  loaded : Parts := []
  ready : Bool := true

/-! ## The cache entry -/

/-- A 32-bit number in two's complement. -/
def int32 (n : ℕ) : ℤ := if n < 2 ^ 31 then n else n - 2 ^ 32

def appendInt (value : ℕ) : Bytes := leBytes 4 value

def takeInt (data : Bytes) : Option ℤ × Bytes :=
  if data.length < 4 then (none, data) else (some (int32 (leNat (data.take 4))), data.drop 4)

def takeBytes (count : ℤ) (data : Bytes) : Bytes × Bytes :=
  if count ≤ 0 ∨ data.length < count then ([], data)
  else (data.take count.toNat, data.drop count.toNat)

def serializeComplexSlice (slice : Slice) : Bytes :=
  appendInt slice.parts.length ++
    slice.parts.flatMap fun part => appendInt part.1 ++ appendInt part.2.length ++ part.2

/-- The bytes behind the parts, and all parts. -/
def takeParts (maxSize : ℕ) : ℕ → Bytes → Parts → Bytes × Parts
  | 0, data, parts => (data, parts)
  | count + 1, data, parts =>
    let (offset, data) := takeInt data
    let offset := offset.getD 0
    let (size, data) := takeInt data
    let size := size.getD 0
    let (bytes, data) := takeBytes size data
    if offset < 0 ∨ maxSize ≤ offset ∨ size ≤ 0 ∨ maxSize < size ∨ maxSize < offset + size ∨
        bytes.length ≠ size then ([], parts)
    else takeParts maxSize count data (parts.emplace offset.toNat bytes)

namespace Slice

def processComplexCacheData (data : Bytes) (maxSize : ℕ) (slice : Slice) : Bytes × Slice :=
  match takeInt data with
  | (none, _) => ([], slice)
  | (some count, data) =>
    if count < 0 then ([], slice)
    else
      let (data, parts) := takeParts maxSize count.toNat data slice.parts
      (data, { slice with parts := parts })

/-- The parts a plain entry is cut into. -/
def plainParts (data : Bytes) : Parts :=
  (List.range ((data.length + kPartSize - 1) / kPartSize)).map fun i =>
    (i * kPartSize, (data.drop (i * kPartSize)).take kPartSize)

/-- What is left of the entry, and the slice; `none` is a failed `Expects`. -/
def processCacheData (data : Bytes) (maxSize : ℕ) (slice : Slice) : Option (Bytes × Slice) :=
  if slice.loadingFromCache ∧ ¬slice.loadedFromCache then
    let (rest, slice) :=
      if IsContiguousSerialization data.length maxSize then
        if maxSize < data.length then ([], slice)
        else
          let parts := (plainParts data).foldl (fun parts part => parts.emplace part.1 part.2)
            slice.parts
          ([], { slice with parts := parts })
      else slice.processComplexCacheData data maxSize
    some (rest, { slice with loadedFromCache := true, loadingFromCache := false })
  else none

def addPart (offset : ℕ) (bytes : Bytes) (slice : Slice) : Option Slice :=
  if slice.parts.contains offset then none
  else some { slice with
    parts := slice.parts.emplace offset bytes
    changedSinceCache := slice.loadedFromCache || slice.changedSinceCache }

/-! ## Filling a buffer -/

/-- `n` offsets from the given one on; `check` are the parts that were not passed yet. -/
def offsetsLoop : ℕ → ℕ → Parts → List ℕ → List ℕ
  | 0, _, _, result => result
  | n + 1, offset, check, result =>
    let check := check.dropWhile fun part => part.1 < offset
    if check.head?.any (fun part => part.1 = offset) then
      offsetsLoop n (offset + kPartSize) check result
    else
      match addValue kLoadFromRemoteMax offset result with
      | (true, result) => offsetsLoop n (offset + kPartSize) check result
      | (false, result) => result

/-- The distance from `start` to `till` is a multiple of the part size. -/
def offsetsFromLoader (start till : ℕ) (slice : Slice) : List ℕ :=
  let after := slice.parts.dropWhile fun part => part.1 ≤ start
  let check := slice.parts.drop (slice.parts.length - after.length - 1)
  offsetsLoop ((till - start) / kPartSize) start check []

def prepareFill (start till : ℕ) (slice : Slice) : PrepareFillResult :=
  let fromOffset := start / kPartSize * kPartSize
  let tillPart := (till + kPartSize - 1) / kPartSize
  let preloadTillOffset := (tillPart + kPreloadPartsAhead) * kPartSize
  match (slice.parts.takeWhile fun part => part.1 ≤ start).getLast? with
  | none =>
    { ready := false, offsetsFromLoader := slice.offsetsFromLoader fromOffset preloadTillOffset }
  | some first =>
    let after := slice.parts.dropWhile fun part => part.1 ≤ start
    let loaded := (first :: after).takeWhile fun part => part.1 < till
    let haveTill := FindNotLoadedStart loaded fromOffset
    if haveTill < till then
      { ready := false, offsetsFromLoader := slice.offsetsFromLoader haveTill preloadTillOffset }
    else
      { ready := true
        loaded := loaded
        offsetsFromLoader :=
          slice.offsetsFromLoader (tillPart * kPartSize) preloadTillOffset }

end Slice

end Bettergram.Media.Streaming

/-! ## The parts of a stretch of bytes

The parts that a slice or the header may hold are determined by where they
start: they start at multiples of the part size, and end there or with the
stretch.
-/

namespace Bettergram.Media.Streaming

variable {r : Bytes} {parts : Parts} {o : ℕ}

/-! ## Lists sorted by offset -/

def Sorted (parts : Parts) : Prop := parts.Pairwise fun a b => a.1 < b.1

theorem contains_iff : parts.contains o ↔ ∃ part ∈ parts, part.1 = o := by
  rw [Parts.contains, List.any_eq_true]
  exact exists_congr fun part => and_congr_right fun _ => decide_eq_true_iff

theorem contains_of_mem {part : ℕ × Bytes} (h : part ∈ parts) : parts.contains part.1 :=
  contains_iff.mpr ⟨part, h, rfl⟩

theorem mem_emplace {bytes : Bytes} {part : ℕ × Bytes} (h : part ∈ parts.emplace o bytes) :
    part ∈ parts ∨ part = (o, bytes) := by
  rw [Parts.emplace] at h
  induction parts with
  | nil => exact .inr (List.mem_singleton.mp h)
  | cons a parts ih =>
    rw [Foundation.emplace] at h
    split_ifs at h
    · obtain rfl | h := List.mem_cons.mp h
      · exact .inl List.mem_cons_self
      · exact (ih h).imp_left (List.mem_cons_of_mem a)
    · exact (List.mem_cons.mp h).symm
    · exact .inl h

theorem subset_emplace (bytes : Bytes) : ∀ part ∈ parts, part ∈ parts.emplace o bytes := by
  induction parts with
  | nil => simp
  | cons a parts ih =>
    intro part h
    rw [Parts.emplace, Foundation.emplace]
    split_ifs
    · obtain rfl | h := List.mem_cons.mp h
      · exact List.mem_cons_self
      · exact List.mem_cons_of_mem a (ih part h)
    · exact List.mem_cons_of_mem _ h
    · exact h

theorem contains_emplace (bytes : Bytes) {i : ℕ} :
    (parts.emplace o bytes).contains i ↔ parts.contains i ∨ i = o := by
  constructor
  · intro h
    obtain ⟨part, hpart, rfl⟩ := contains_iff.mp h
    obtain h | rfl := mem_emplace hpart
    · exact .inl (contains_of_mem h)
    · exact .inr rfl
  · rintro (h | rfl)
    · obtain ⟨part, hpart, rfl⟩ := contains_iff.mp h
      exact contains_of_mem (subset_emplace bytes part hpart)
    · induction parts with
      | nil => simp [Parts.emplace, Foundation.emplace, Parts.contains]
      | cons a parts ih =>
        obtain ⟨part, hpart, hi⟩ := contains_iff.mp ih
        rw [contains_iff, Parts.emplace, Foundation.emplace]
        split_ifs with hlt hgt
        · exact ⟨part, List.mem_cons_of_mem a hpart, hi⟩
        · exact ⟨_, List.mem_cons_self, rfl⟩
        · exact ⟨a, List.mem_cons_self, by omega⟩

theorem Sorted.emplace (h : Sorted parts) (bytes : Bytes) : Sorted (parts.emplace o bytes) := by
  induction parts with
  | nil => exact List.pairwise_singleton ..
  | cons a parts ih =>
    obtain ⟨ha, hparts⟩ := List.pairwise_cons.mp h
    have ih := ih hparts
    rw [Parts.emplace, Foundation.emplace]
    split_ifs with hlt hgt
    · refine List.pairwise_cons.mpr ⟨fun part hpart => ?_, ih⟩
      obtain hmem | rfl := mem_emplace hpart
      · exact ha part hmem
      · exact hlt
    · refine List.pairwise_cons.mpr ⟨fun part hpart => ?_, h⟩
      obtain rfl | hmem := List.mem_cons.mp hpart
      · exact hgt
      · exact hgt.trans (ha part hmem)
    · exact h

/-- Two sorted lists with the same parts are equal. -/
theorem Sorted.eq_of_mem_iff {parts' : Parts} (h : Sorted parts) (h' : Sorted parts')
    (hmem : ∀ part, part ∈ parts ↔ part ∈ parts') : parts = parts' := by
  have hnodup : ∀ {l : Parts}, Sorted l → l.Nodup := by
    intro l hl
    refine List.Pairwise.imp ?_ (show l.Pairwise fun a b => a.1 < b.1 from hl)
    rintro a b hab rfl
    exact hab.false
  have hperm : parts.Perm parts' :=
    (List.perm_ext_iff_of_nodup (hnodup h) (hnodup h')).mpr hmem
  exact hperm.eq_of_pairwise (fun a b _ _ hab hba => absurd (hab.trans hba) (lt_irrefl _)) h h'

theorem Sorted.length_le (h : Sorted parts) {bound : ℕ} (hbound : ∀ part ∈ parts, part.1 < bound) :
    parts.length ≤ bound := by
  have hnodup : (parts.map Prod.fst).Nodup := by
    refine List.pairwise_map.mpr (List.Pairwise.imp ?_
      (show parts.Pairwise fun a b => a.1 < b.1 from h))
    exact fun hab => hab.ne
  have hsub : parts.map Prod.fst ⊆ List.range bound := by
    intro i hi
    obtain ⟨part, hpart, rfl⟩ := List.mem_map.mp hi
    exact List.mem_range.mpr (hbound part hpart)
  simpa using (List.subperm_of_subset hnodup hsub).length_le

/-! ## Parts of a stretch -/

def partAt (r : Bytes) (o : ℕ) : Bytes := (r.drop o).take kPartSize

theorem length_partAt (r : Bytes) (o : ℕ) : (partAt r o).length = min kPartSize (r.length - o) := by
  rw [partAt, List.length_take, List.length_drop]

theorem kPartSize_pos : 0 < kPartSize := by simp [kPartSize]

/-- The parts are parts of the stretch `r`. -/
structure Holds (r : Bytes) (parts : Parts) : Prop where
  sorted : Sorted parts
  dvd : ∀ part ∈ parts, kPartSize ∣ part.1
  lt : ∀ part ∈ parts, part.1 < r.length
  eq : ∀ part ∈ parts, part.2 = partAt r part.1

namespace Holds

theorem nil : Holds r [] := ⟨List.Pairwise.nil, by simp, by simp, by simp⟩

theorem mem_iff (h : Holds r parts) {part : ℕ × Bytes} :
    part ∈ parts ↔ parts.contains part.1 ∧ part.2 = partAt r part.1 := by
  constructor
  · exact fun hmem => ⟨contains_of_mem hmem, h.eq part hmem⟩
  · rintro ⟨hcontains, heq⟩
    obtain ⟨part', hmem, hfst⟩ := contains_iff.mp hcontains
    have hpart : part' = part := Prod.ext hfst (by rw [h.eq part' hmem, heq, hfst])
    exact hpart ▸ hmem

theorem sublist (h : Holds r parts) {parts' : Parts} (hsub : parts'.Sublist parts) :
    Holds r parts' :=
  ⟨List.Pairwise.sublist hsub h.sorted, fun part hpart => h.dvd part (hsub.subset hpart),
    fun part hpart => h.lt part (hsub.subset hpart), fun part hpart => h.eq part (hsub.subset hpart)⟩

theorem emplace (h : Holds r parts) (hdvd : kPartSize ∣ o) (hlt : o < r.length) :
    Holds r (parts.emplace o (partAt r o)) := by
  refine ⟨h.sorted.emplace _, fun part hpart => ?_, fun part hpart => ?_, fun part hpart => ?_⟩
  · obtain hmem | rfl := mem_emplace hpart
    · exact h.dvd part hmem
    · exact hdvd
  · obtain hmem | rfl := mem_emplace hpart
    · exact h.lt part hmem
    · exact hlt
  · obtain hmem | rfl := mem_emplace hpart
    · exact h.eq part hmem
    · rfl

/-- The parts are known when their offsets are. -/
theorem ext {parts' : Parts} (h : Holds r parts) (h' : Holds r parts')
    (hoffsets : ∀ o, parts.contains o ↔ parts'.contains o) : parts = parts' :=
  h.sorted.eq_of_mem_iff h'.sorted fun part => by rw [h.mem_iff, h'.mem_iff, hoffsets]

/-- All parts of a list are put to the ones that are there. -/
theorem foldl_emplace (h : Holds r parts) {more : Parts} (hmore : Holds r more) :
    Holds r (more.foldl (fun parts part => parts.emplace part.1 part.2) parts) ∧
      ∀ o, Parts.contains o (more.foldl (fun parts part => parts.emplace part.1 part.2) parts) ↔
        parts.contains o ∨ more.contains o := by
  induction more generalizing parts with
  | nil => exact ⟨h, fun o => by simp [Parts.contains]⟩
  | cons part more ih =>
    have hpart := hmore.eq part List.mem_cons_self
    have hnext := h.emplace (hmore.dvd part List.mem_cons_self) (hmore.lt part List.mem_cons_self)
    rw [← hpart] at hnext
    obtain ⟨hholds, hcontains⟩ := ih hnext (hmore.sublist (List.sublist_cons_self part more))
    refine ⟨hholds, fun o => ?_⟩
    have hcons : Parts.contains o (part :: more) ↔ part.1 = o ∨ Parts.contains o more := by
      simp [Parts.contains]
    rw [List.foldl_cons, hcontains, contains_emplace, hcons, or_assoc, @eq_comm _ o]

/-- A part ends before the next one, or there. -/
theorem end_le (h : Holds r parts) {a b : ℕ × Bytes} (ha : a ∈ parts) (hb : b ∈ parts)
    (hab : a.1 < b.1) : a.1 + a.2.length = a.1 + kPartSize ∧ a.1 + kPartSize ≤ b.1 := by
  have hle : a.1 + kPartSize ≤ b.1 := by
    obtain ⟨i, hi⟩ := h.dvd a ha
    obtain ⟨j, hj⟩ := h.dvd b hb
    have hij : i < j := by
      rw [hi, hj] at hab
      exact Nat.lt_of_mul_lt_mul_left hab
    calc a.1 + kPartSize = kPartSize * (i + 1) := by rw [hi, Nat.mul_succ]
      _ ≤ kPartSize * j := Nat.mul_le_mul_left _ hij
      _ = b.1 := hj.symm
  have hlt := h.lt b hb
  refine ⟨?_, hle⟩
  rw [h.eq a ha, length_partAt]
  omega

theorem end_pos (h : Holds r parts) {a : ℕ × Bytes} (ha : a ∈ parts) :
    0 < a.2.length ∧ a.1 + a.2.length ≤ r.length ∧
      (a.1 + a.2.length = a.1 + kPartSize ∨ a.1 + a.2.length = r.length) := by
  have hlt := h.lt a ha
  have hpos := kPartSize_pos
  rw [h.eq a ha, length_partAt]
  omega

end Holds

end Bettergram.Media.Streaming
