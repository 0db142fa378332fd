import Bettergram.Media.Streaming.Slices
import Bettergram.Media.Streaming.Slice

/-! # Cache entries

What is put to the cache for a slice gives its parts back. A plain entry is
told from a list of parts by its length.
-/

namespace Bettergram.Media.Streaming
open Foundation Slices

variable {r : Bytes} {parts : Parts}

/-! ## Plain entries -/

/-- The first `n` parts. -/
def firstParts (r : Bytes) (n : ℕ) : Parts :=
  (List.range n).map fun i => (i * kPartSize, partAt r (i * kPartSize))

/-- Parts that follow on each other from `start` on. -/
def partsFrom (r : Bytes) (start n : ℕ) : Parts :=
  (List.range n).map fun i => (start + i * kPartSize, partAt r (start + i * kPartSize))

theorem partsFrom_succ (start n : ℕ) : partsFrom r start (n + 1) =
    (start, partAt r start) :: partsFrom r (start + kPartSize) n := by
  rw [partsFrom, List.range_succ_eq_map, List.map_cons, List.map_map, Nat.zero_mul, Nat.add_zero,
    partsFrom]
  congr 1
  refine List.map_congr_left fun i _ => ?_
  have hi : start + (i + 1) * kPartSize = start + kPartSize + i * kPartSize := by
    rw [Nat.succ_mul]
    omega
  rw [Function.comp_apply, Nat.succ_eq_add_one, hi]

/-- When the loaded bytes reach behind the start of the last part, nothing is missing. -/
theorem Holds.contiguous (h : Holds r parts) {start : ℕ} (hstart : ∀ part ∈ parts, start ≤ part.1)
    {back : ℕ × Bytes} (hback : parts.getLast? = some back)
    (hlt : back.1 < FindNotLoadedStart parts start) :
    parts = partsFrom r start parts.length ∧ start + (parts.length - 1) * kPartSize < r.length := by
  induction parts generalizing start with
  | nil => simp at hback
  | cons part parts ih =>
    have hself := List.mem_cons_self (a := part) (l := parts)
    have hle := hstart part hself
    have hpos := h.end_pos hself
    by_cases hmet : part.1 ≤ start ∧ start ≤ part.1 + part.2.length
    · have hfirst : part.1 = start := le_antisymm hmet.1 hle
      have hpart : part = (start, partAt r start) :=
        Prod.ext hfirst (by rw [h.eq part hself, hfirst])
      rw [FindNotLoadedStart, if_pos hmet] at hlt
      cases parts with
      | nil =>
        refine ⟨by rw [List.length_singleton, partsFrom_succ, hpart]; rfl, ?_⟩
        have := h.lt part hself
        simp only [List.length_singleton]
        omega
      | cons next parts =>
        have hnext : next ∈ part :: next :: parts := List.mem_cons_of_mem part List.mem_cons_self
        have hsorted := (List.pairwise_cons.mp h.sorted).1
        obtain ⟨hend, hnextStart⟩ := h.end_le hself hnext (hsorted next List.mem_cons_self)
        have hrest : ∀ p ∈ next :: parts, start + kPartSize ≤ p.1 := fun p hp => by
          have hp' := (h.end_le hself (List.mem_cons_of_mem part hp) (hsorted p hp)).2
          omega
        rw [hend, hfirst] at hlt
        obtain ⟨heq, hlast⟩ := ih (h.sublist (List.sublist_cons_self ..)) hrest
          (by rwa [List.getLast?_cons_cons] at hback) hlt
        have hlength : (part :: next :: parts).length = (next :: parts).length + 1 := rfl
        refine ⟨?_, ?_⟩
        · rw [hlength, partsFrom_succ, ← heq, hpart]
        · have hsplit : (next :: parts).length - 1 + 1 = (next :: parts).length :=
            Nat.succ_pred_eq_of_pos (Nat.succ_pos _)
          rw [hlength, Nat.add_sub_cancel, ← hsplit, Nat.succ_mul]
          omega
    · rw [FindNotLoadedStart, if_neg hmet] at hlt
      have := hstart back (List.mem_of_getLast? hback)
      omega

theorem flatMap_partsFrom {start n : ℕ} (h : start + (n - 1) * kPartSize < r.length ∨ n = 0) :
    (partsFrom r start n).flatMap Prod.snd = (r.drop start).take (n * kPartSize) := by
  induction n generalizing start with
  | zero => simp [partsFrom]
  | succ n ih =>
    have hsucc : (n + 1) * kPartSize = kPartSize + n * kPartSize := by
      rw [Nat.succ_mul, Nat.add_comm]
    have hrest : start + kPartSize + (n - 1) * kPartSize < r.length ∨ n = 0 := by
      cases n with
      | zero => exact .inr rfl
      | succ n =>
        have hlast : (n + 1) * kPartSize = n * kPartSize + kPartSize := Nat.succ_mul ..
        simp only [Nat.add_sub_cancel] at h ⊢
        omega
    rw [partsFrom_succ, List.flatMap_cons, hsucc, List.take_add, List.drop_drop, ih hrest]
    rfl

theorem plainParts_take {n : ℕ} (h : (n - 1) * kPartSize < r.length) (hn : 0 < n) :
    Slice.plainParts (r.take (n * kPartSize)) = partsFrom r 0 n := by
  obtain ⟨m, rfl⟩ : ∃ m, n = m + 1 := ⟨n - 1, by omega⟩
  have hpos := kPartSize_pos
  rw [Nat.add_sub_cancel] at h
  have hsucc : (m + 1) * kPartSize = m * kPartSize + kPartSize := Nat.succ_mul ..
  have hcount : ((r.take ((m + 1) * kPartSize)).length + kPartSize - 1) / kPartSize = m + 1 := by
    rw [List.length_take]
    refine Nat.div_eq_of_lt_le ?_ ?_
    · rw [hsucc]
      omega
    · have hnext : (m + 1 + 1) * kPartSize = (m + 1) * kPartSize + kPartSize := Nat.succ_mul ..
      omega
  rw [Slice.plainParts, hcount, partsFrom]
  refine List.map_congr_left fun i hi => ?_
  have hle : (i + 1) * kPartSize ≤ (m + 1) * kPartSize :=
    Nat.mul_le_mul_right _ (List.mem_range.mp hi)
  rw [Nat.succ_mul] at hle
  have hmin : min kPartSize ((m + 1) * kPartSize - i * kPartSize) = kPartSize := by omega
  rw [Nat.zero_add, partAt, List.drop_take, List.take_take, hmin]

/-! ## Lists of parts -/

theorem takeInt_appendInt {value : ℕ} (h : value < 2 ^ 31) (rest : Bytes) :
    takeInt (appendInt value ++ rest) = (some (value : ℤ), rest) := by
  have hlength : (appendInt value).length = 4 := length_leBytes 4 value
  have hlt : value < 256 ^ 4 := h.trans (by norm_num)
  have hlong : ¬(appendInt value ++ rest).length < 4 := by
    rw [List.length_append]
    omega
  rw [takeInt, if_neg hlong, List.take_left' hlength, List.drop_left' hlength, appendInt,
    leNat_leBytes_of_lt hlt, int32, if_pos h]

theorem takeBytes_append {bytes : Bytes} (h : 0 < bytes.length) (rest : Bytes) :
    takeBytes bytes.length (bytes ++ rest) = (bytes, rest) := by
  have hfits : ¬((bytes.length : ℤ) ≤ 0 ∨ ((bytes ++ rest).length : ℤ) < bytes.length) := by
    rw [List.length_append]
    omega
  rw [takeBytes, if_neg hfits, Int.toNat_natCast, List.take_left, List.drop_left]

def partBytes (part : ℕ × Bytes) : Bytes := appendInt part.1 ++ appendInt part.2.length ++ part.2

theorem serializeComplexSlice_eq (slice : Slice) : serializeComplexSlice slice =
    appendInt slice.parts.length ++ slice.parts.flatMap partBytes := rfl

/-- What is written for parts is read as these parts. -/
theorem takeParts_flatMap (hr : r.length < 2 ^ 31) (h : Holds r parts) (rest : Bytes)
    (was : Parts) : takeParts r.length parts.length (parts.flatMap partBytes ++ rest) was =
      (rest, parts.foldl (fun parts part => parts.emplace part.1 part.2) was) := by
  induction parts generalizing was with
  | nil => rfl
  | cons part parts ih =>
    have hself := List.mem_cons_self (a := part) (l := parts)
    have hlt := h.lt part hself
    obtain ⟨hpos, hend, -⟩ := h.end_pos hself
    have ih := ih (h.sublist (List.sublist_cons_self part parts)) (was.emplace part.1 part.2)
    rw [List.length_cons, takeParts, List.flatMap_cons, partBytes, List.append_assoc,
      List.append_assoc, List.append_assoc, takeInt_appendInt (by omega)]
    dsimp only
    rw [takeInt_appendInt (by omega)]
    simp only [Option.getD_some, takeBytes_append hpos]
    have hvalid : ¬((part.1 : ℤ) < 0 ∨ (r.length : ℤ) ≤ part.1 ∨ (part.2.length : ℤ) ≤ 0 ∨
        (r.length : ℤ) < part.2.length ∨ (r.length : ℤ) < part.1 + part.2.length ∨
        (part.2.length : ℤ) ≠ part.2.length) := by omega
    rw [if_neg hvalid, Int.toNat_natCast, ih, List.foldl_cons]

theorem processComplexCacheData_serialized (hr : r.length < 2 ^ 31) {slice : Slice}
    (h : Holds r slice.parts) (rest : Bytes) (was : Slice) :
    was.processComplexCacheData (serializeComplexSlice slice ++ rest) r.length =
      (rest, { was with parts :=
        slice.parts.foldl (fun parts part => parts.emplace part.1 part.2) was.parts }) := by
  have hcount := h.sorted.length_le h.lt
  have hpos : ¬((slice.parts.length : ℤ) < 0) := by omega
  rw [Slice.processComplexCacheData, serializeComplexSlice_eq, List.append_assoc,
    takeInt_appendInt (by omega)]
  dsimp only
  rw [if_neg hpos, Int.toNat_natCast, takeParts_flatMap hr h]

theorem length_serializeComplexSlice (slice : Slice) : (serializeComplexSlice slice).length =
    4 + 8 * slice.parts.length + (slice.parts.map fun part => part.2.length).sum := by
  have hpart : ∀ part : ℕ × Bytes, (partBytes part).length = 8 + part.2.length := fun part => by
    rw [partBytes, List.length_append, List.length_append, appendInt, appendInt, length_leBytes,
      length_leBytes]
  have hparts : (slice.parts.flatMap partBytes).length =
      8 * slice.parts.length + (slice.parts.map fun part => part.2.length).sum := by
    induction slice.parts with
    | nil => rfl
    | cons part parts ih =>
      rw [List.flatMap_cons, List.length_append, hpart, ih, List.length_cons, List.map_cons,
        List.sum_cons]
      omega
  rw [serializeComplexSlice_eq, List.length_append, hparts, appendInt, length_leBytes,
    Nat.add_assoc]

/-- The zeros end the loop. -/
theorem appendZeros_spec (maxSize : ℕ) (data : Bytes) : ∃ zeros : Bytes, zeros.length ≤ 2 ∧
    appendZeros maxSize 3 data = data ++ zeros ∧
    ¬IsContiguousSerialization (data ++ zeros).length maxSize := by
  by_cases h₀ : IsContiguousSerialization data.length maxSize
  · by_cases h₁ : IsContiguousSerialization (data ++ [0]).length maxSize
    · have h₂ : ¬IsContiguousSerialization (data ++ [0] ++ [0]).length maxSize := by
        simp only [IsContiguousSerialization, kPartSize, List.length_append,
          List.length_singleton] at h₀ h₁ ⊢
        omega
      refine ⟨[0] ++ [0], by simp, ?_, by rwa [← List.append_assoc]⟩
      rw [appendZeros, if_pos h₀, appendZeros, if_pos h₁, appendZeros, if_neg h₂, List.append_assoc]
    · refine ⟨[0], by simp, ?_, h₁⟩
      rw [appendZeros, if_pos h₀, appendZeros, if_neg h₁]
  · refine ⟨[], by simp, ?_, by rwa [List.append_nil]⟩
    rw [appendZeros, if_neg h₀, List.append_nil]

/-! ## One slice -/

/-- A slice after the parts of an entry were put to it. -/
def Slice.withParts (more : Parts) (slice : Slice) : Slice where
  parts := more.foldl (fun parts part => parts.emplace part.1 part.2) slice.parts
  loadingFromCache := false
  loadedFromCache := true
  changedSinceCache := slice.changedSinceCache

theorem processCacheData_complex (hr : r.length < 2 ^ 31) {slice : Slice}
    (h : Holds r slice.parts) (rest : Bytes) (was : Slice)
    (hcomplex : ¬IsContiguousSerialization (serializeComplexSlice slice ++ rest).length r.length)
    (hloading : was.loadingFromCache) (hloaded : ¬was.loadedFromCache) :
    was.processCacheData (serializeComplexSlice slice ++ rest) r.length =
      some (rest, was.withParts slice.parts) := by
  rw [Slice.processCacheData, if_pos ⟨hloading, hloaded⟩, if_neg hcomplex,
    processComplexCacheData_serialized hr h]
  rfl

/-- The entry of a slice gives its parts; and the length tells how they are kept. -/
theorem processCacheData_serializeSlice (hr : r.length < 2 ^ 31) {slice : Slice}
    (h : Holds r slice.parts) {data : Bytes} (hdata : serializeSlice slice r.length = some data)
    (was : Slice) (hloading : was.loadingFromCache) (hloaded : ¬was.loadedFromCache) :
    (∃ rest, was.processCacheData data r.length = some (rest, was.withParts slice.parts)) ∧
      (IsContiguousSerialization data.length r.length ↔
        data = slice.parts.flatMap Prod.snd) := by
  obtain ⟨back, hback, hdata⟩ := Option.bind_eq_some_iff.mp hdata
  split_ifs at hdata with hlt
  · obtain rfl := Option.some.inj hdata
    obtain ⟨heq, hlast⟩ := h.contiguous (fun _ _ => Nat.zero_le _) hback hlt
    have hpos : 0 < slice.parts.length := List.length_pos_of_mem (List.mem_of_getLast? hback)
    rw [Nat.zero_add] at hlast
    have hflat : (slice.parts.flatMap fun part => part.2) =
        r.take (slice.parts.length * kPartSize) := by
      have := flatMap_partsFrom (show 0 + (slice.parts.length - 1) * kPartSize < r.length ∨
        slice.parts.length = 0 from .inl (by rwa [Nat.zero_add]))
      rw [← heq, List.drop_zero] at this
      exact this
    have hlength : (r.take (slice.parts.length * kPartSize)).length ≤ r.length := by
      rw [List.length_take]
      exact min_le_right ..
    have hcontiguous : IsContiguousSerialization
        (r.take (slice.parts.length * kPartSize)).length r.length := by
      rw [List.length_take]
      obtain hle | hle := le_total (slice.parts.length * kPartSize) r.length
      · exact .inl (by rw [min_eq_left hle, Nat.mul_mod_left])
      · exact .inr (min_eq_right hle)
    rw [hflat]
    refine ⟨⟨[], ?_⟩, iff_of_true hcontiguous rfl⟩
    rw [Slice.processCacheData, if_pos ⟨hloading, hloaded⟩, if_pos hcontiguous,
      if_neg (not_lt.mpr hlength), plainParts_take hlast hpos, ← heq]
    rfl
  · obtain rfl := Option.some.inj hdata
    obtain ⟨zeros, -, hzeros, hcomplex⟩ := appendZeros_spec r.length (serializeComplexSlice slice)
    rw [hzeros]
    refine ⟨⟨zeros, processCacheData_complex hr h zeros was hcomplex hloading hloaded⟩,
      iff_of_false hcomplex fun heq => ?_⟩
    have hlength := congrArg List.length heq
    have hplain : (slice.parts.flatMap Prod.snd).length =
        (slice.parts.map fun part => part.2.length).sum := List.length_flatMap ..
    rw [List.length_append, length_serializeComplexSlice, hplain] at hlength
    omega

end Bettergram.Media.Streaming
