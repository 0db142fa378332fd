import Bettergram.Media.Streaming.CacheEntries

/-! # Slices of one file

The slices and the header hold parts of the file they were made for.
-/

namespace Bettergram.Media.Streaming

variable {file : Bytes} {s s' : Slices}

/-- The bytes of the slice with an index. -/
def sliceBytes (file : Bytes) (i : ℕ) : Bytes := (file.drop (i * kInSlice)).take kInSlice

theorem kInSlice_eq : kInSlice = 64 * kPartSize := by rw [kInSlice, kPartsInSlice]

theorem kInSlice_pos : 0 < kInSlice := by
  have := kPartSize_pos
  rw [kInSlice_eq]
  omega

theorem length_sliceBytes (file : Bytes) (i : ℕ) :
    (sliceBytes file i).length = min kInSlice (file.length - i * kInSlice) := by
  rw [sliceBytes, List.length_take, List.length_drop]

theorem dvd_kInSlice : kPartSize ∣ kInSlice := ⟨64, by rw [kInSlice_eq, Nat.mul_comm]⟩

/-- A part of a slice is a part of the file. -/
theorem partAt_sliceBytes {i o : ℕ} (hdvd : kPartSize ∣ o) (ho : o < kInSlice) :
    partAt (sliceBytes file i) o = partAt file (i * kInSlice + o) := by
  have hle : o + kPartSize ≤ kInSlice := by
    obtain ⟨j, rfl⟩ := hdvd
    have hj : j < 64 := by
      rw [kInSlice_eq, Nat.mul_comm] at ho
      exact Nat.lt_of_mul_lt_mul_right ho
    calc kPartSize * j + kPartSize = kPartSize * (j + 1) := (Nat.mul_succ ..).symm
      _ ≤ kPartSize * 64 := Nat.mul_le_mul_left _ hj
      _ = kInSlice := by rw [kInSlice_eq, Nat.mul_comm]
  have hmin : min kPartSize (kInSlice - o) = kPartSize := by omega
  rw [partAt, partAt, sliceBytes, List.drop_take, List.take_take, hmin, List.drop_drop]

namespace Slices

/-- What the slices and the header hold is of the file. -/
structure OfFile (file : Bytes) (s : Slices) : Prop where
  size_eq : s.size = file.length
  nonempty : 0 < file.length
  length_data : s.data.length =
    if file.length ≤ kMaxOnlyInHeader then 0 else (file.length + kInSlice - 1) / kInSlice
  header : Holds file s.header.parts
  data : ∀ i slice, s.data[i]? = some slice → Holds (sliceBytes file i) slice.parts

theorem new_ofFile {useCache : Bool} (h : new file.length useCache = some s) : OfFile file s := by
  by_cases hpos : 0 < file.length
  · rw [new, if_pos hpos] at h
    obtain rfl := Option.some.inj h
    refine ⟨rfl, hpos, ?_, Holds.nil, fun i slice hslice => ?_⟩
    · dsimp only
      split_ifs
      · rfl
      · rw [List.length_replicate]
    · dsimp only at hslice
      split_ifs at hslice
      · simp at hslice
      · rw [List.eq_of_mem_replicate (List.mem_of_getElem? hslice)]
        exact Holds.nil
  · rw [new, if_neg hpos] at h
    cases h

theorem new_returns (h : 0 < file.length) (useCache : Bool) :
    ∃ s, new file.length useCache = some s := ⟨_, if_pos h⟩

theorem OfFile.not_full (h : OfFile file s) {i : ℕ} (hi : i < s.data.length) : ¬s.isFullInHeader := by
  intro hfull
  rw [isFullInHeader, h.size_eq] at hfull
  rw [h.length_data, if_pos hfull] at hi
  omega

/-- The slices cover the file. -/
theorem OfFile.index_lt (h : OfFile file s) {o : ℕ} (hfull : ¬s.isFullInHeader)
    (ho : o < file.length) : o / kInSlice < s.data.length := by
  have hpos := kInSlice_pos
  rw [isFullInHeader, h.size_eq] at hfull
  rw [h.length_data, if_neg hfull]
  refine (Nat.div_lt_iff_lt_mul hpos).mpr ?_
  have hdiv := Nat.div_add_mod (file.length + kInSlice - 1) kInSlice
  have hmod := Nat.mod_lt (file.length + kInSlice - 1) hpos
  rw [Nat.mul_comm]
  omega

theorem OfFile.start_lt (h : OfFile file s) {i : ℕ} (hi : i < s.data.length) :
    i * kInSlice < file.length := by
  have hpos := kInSlice_pos
  have hfull := h.not_full hi
  rw [isFullInHeader, h.size_eq] at hfull
  rw [h.length_data, if_neg hfull] at hi
  have hle := Nat.div_mul_le_self (file.length + kInSlice - 1) kInSlice
  have hsucc := Nat.mul_le_mul_right kInSlice hi
  rw [Nat.succ_mul] at hsucc
  omega

/-- The size of a slice is that of its bytes. -/
theorem OfFile.maxSliceSize_succ (h : OfFile file s) {i : ℕ} (hi : i < s.data.length) :
    s.maxSliceSize (i + 1) = (sliceBytes file i).length := by
  have hpos := kInSlice_pos
  have hstart := h.start_lt hi
  have hsucc : (i + 1) * kInSlice = i * kInSlice + kInSlice := Nat.succ_mul ..
  rw [maxSliceSize, if_neg (Nat.succ_ne_zero i), length_sliceBytes, Nat.add_sub_cancel, h.size_eq]
  split_ifs with hlast
  · have hend : file.length ≤ s.data.length * kInSlice := by
      have hdiv := (Nat.div_lt_iff_lt_mul hpos).mp
        (h.index_lt (h.not_full hi) (Nat.sub_lt h.nonempty Nat.one_pos))
      omega
    rw [← hlast] at hend
    omega
  · have hnext := h.start_lt (i := i + 1) (by omega)
    omega

theorem OfFile.maxSliceSize_zero (h : OfFile file s) : s.maxSliceSize 0 = file.length := by
  rw [maxSliceSize, if_pos rfl, h.size_eq]

/-! ## Changing a slice -/

theorem modifySlice_eq_some {index : ℕ} {action : Slice → Option Slice}
    (h : s.modifySlice index action = some s') : ∃ slice slice', s.data[index]? = some slice ∧
      action slice = some slice' ∧ s' = { s with data := s.data.set index slice' } := by
  obtain ⟨slice, hslice, h⟩ := Option.bind_eq_some_iff.mp h
  obtain ⟨slice', haction, h⟩ := Option.bind_eq_some_iff.mp h
  exact ⟨slice, slice', hslice, haction, (Option.some.inj h).symm⟩

theorem modifySlice_of {index : ℕ} {action : Slice → Option Slice} {slice slice' : Slice}
    (hslice : s.data[index]? = some slice) (haction : action slice = some slice') :
    s.modifySlice index action = some { s with data := s.data.set index slice' } := by
  rw [modifySlice, hslice, Option.bind_eq_bind, Option.bind_some, haction]
  rfl

theorem getElem?_set_cases {data : List Slice} {index i : ℕ} {new slice : Slice}
    (h : (data.set index new)[i]? = some slice) :
    i = index ∧ slice = new ∨ i ≠ index ∧ data[i]? = some slice := by
  rw [List.getElem?_set] at h
  split_ifs at h with heq hlt
  · exact .inl ⟨heq.symm, (Option.some.inj h).symm⟩
  · exact .inr ⟨fun hi => heq hi.symm, h⟩

theorem OfFile.set (h : OfFile file s) {index : ℕ} (slice : Slice)
    (hslice : Holds (sliceBytes file index) slice.parts) :
    OfFile file { s with data := s.data.set index slice } := by
  refine ⟨h.size_eq, h.nonempty, by rw [List.length_set]; exact h.length_data, h.header,
    fun i slice' hslice' => ?_⟩
  obtain ⟨rfl, rfl⟩ | ⟨-, hslice'⟩ := getElem?_set_cases hslice'
  · exact hslice
  · exact h.data i slice' hslice'

theorem addPart_of {slice : Slice} {o : ℕ} (bytes : Bytes) (h : ¬slice.parts.contains o) :
    slice.addPart o bytes = some { slice with
      parts := slice.parts.emplace o bytes
      changedSinceCache := slice.loadedFromCache || slice.changedSinceCache } := by
  rw [Slice.addPart, if_neg h]

/-- The slices after the parts of the header were put to them. -/
structure Applied (bound : ℕ) (parts : Parts) (s s' : Slices) : Prop where
  same : s' = { s with data := s'.data }
  length_eq : s'.data.length = s.data.length
  contains : ∀ i slice', s'.data[i]? = some slice' → ∃ slice, s.data[i]? = some slice ∧
    slice'.loadingFromCache = slice.loadingFromCache ∧
    slice'.loadedFromCache = slice.loadedFromCache ∧
    ∀ o, slice'.parts.contains o ↔ slice.parts.contains o ∨
      (i < bound ∧ o < kInSlice ∧ parts.contains (i * kInSlice + o))

theorem contains_cons {part : ℕ × Bytes} {parts : Parts} {o : ℕ} :
    Parts.contains o (part :: parts) ↔ part.1 = o ∨ Parts.contains o parts := by
  simp [Parts.contains]

theorem applyWhile_returns {bound : ℕ} {parts : Parts} (h : OfFile file s)
    (hparts : Holds file parts) (hbound : bound ≤ s.data.length)
    (hfree : ∀ o, parts.contains o → o / kInSlice < bound → ∀ slice,
      s.data[o / kInSlice]? = some slice → ¬slice.parts.contains (o - o / kInSlice * kInSlice)) :
    ∃ s', applyWhile bound parts s = some s' ∧ OfFile file s' ∧ Applied bound parts s s' := by
  induction parts generalizing s with
  | nil =>
    refine ⟨s, rfl, h, rfl, rfl, fun i slice hslice => ⟨slice, hslice, rfl, rfl, fun o => ?_⟩⟩
    simp [Parts.contains]
  | cons part parts ih =>
    obtain ⟨offset, bytes⟩ := part
    have hself := List.mem_cons_self (a := (offset, bytes)) (l := parts)
    have hsorted := (List.pairwise_cons.mp hparts.sorted).1
    have hrest := hparts.sublist (List.sublist_cons_self (offset, bytes) parts)
    have hpos := kInSlice_pos
    by_cases hindex : offset / kInSlice < bound
    · obtain ⟨slice, hslice⟩ : ∃ slice, s.data[offset / kInSlice]? = some slice :=
        List.getElem?_eq_some_iff.mpr ⟨by omega, rfl⟩ |> fun h => ⟨_, h⟩
      have hmod : offset - offset / kInSlice * kInSlice = offset % kInSlice := by
        have := Nat.div_add_mod offset kInSlice
        rw [Nat.mul_comm] at this
        omega
      have hlt : offset % kInSlice < kInSlice := Nat.mod_lt _ hpos
      have hsplit : offset / kInSlice * kInSlice + offset % kInSlice = offset := by
        rw [Nat.mul_comm]
        exact Nat.div_add_mod ..
      have hnot := hfree offset (contains_of_mem hself) hindex slice hslice
      rw [hmod] at hnot
      have hdvd : kPartSize ∣ offset % kInSlice :=
        (Nat.dvd_mod_iff dvd_kInSlice).mpr (hparts.dvd _ hself)
      have hbytes : bytes = partAt (sliceBytes file (offset / kInSlice)) (offset % kInSlice) := by
        rw [partAt_sliceBytes hdvd hlt, hsplit]
        exact hparts.eq _ hself
      have hinside : offset % kInSlice < (sliceBytes file (offset / kInSlice)).length := by
        have hend := hparts.lt _ hself
        rw [length_sliceBytes, lt_min_iff, Nat.lt_sub_iff_add_lt, Nat.add_comm, hsplit]
        exact ⟨hlt, hend⟩
      have hholds := (h.data _ slice hslice).emplace hdvd hinside
      rw [← hbytes] at hholds
      obtain ⟨s', hs', hof, happlied⟩ := ih (h.set { slice with
        parts := slice.parts.emplace (offset % kInSlice) bytes
        changedSinceCache := slice.loadedFromCache || slice.changedSinceCache } hholds) hrest
        (by rwa [List.length_set]) (by
          intro o ho hobound slice' hslice' hcontains
          obtain ⟨heq, rfl⟩ | ⟨-, hslice'⟩ := getElem?_set_cases hslice'
          · rw [contains_emplace] at hcontains
            obtain hcontains | hsame := hcontains
            · exact hfree o (contains_cons.mpr (.inr ho)) hobound slice (heq ▸ hslice) hcontains
            · obtain ⟨other, hother, rfl⟩ := contains_iff.mp ho
              have hless := hsorted other hother
              have := Nat.div_add_mod other.1 kInSlice
              rw [heq, Nat.mul_comm] at this
              rw [heq] at hsame
              omega
          · exact hfree o (contains_cons.mpr (.inr ho)) hobound slice' hslice' hcontains)
      refine ⟨s', ?_, hof, ?_⟩
      · rw [applyWhile, if_pos hindex, hmod, modifySlice_of hslice (addPart_of bytes hnot)]
        exact hs'
      · refine ⟨happlied.same, by rw [happlied.length_eq, List.length_set],
          fun i slice' hslice' => ?_⟩
        obtain ⟨mid, hmid, hloading, hloaded, hcontains⟩ := happlied.contains i slice' hslice'
        obtain ⟨rfl, rfl⟩ | ⟨hne, hmid⟩ := getElem?_set_cases hmid
        · refine ⟨slice, hslice, hloading, hloaded, fun o => ?_⟩
          rw [hcontains, contains_emplace, contains_cons]
          constructor
          · rintro ((ho | rfl) | ⟨hi, ho, hmem⟩)
            · exact .inl ho
            · exact .inr ⟨hindex, hlt, .inl hsplit.symm⟩
            · exact .inr ⟨hi, ho, .inr hmem⟩
          · rintro (ho | ⟨hi, ho, hmem | hmem⟩)
            · exact .inl (.inl ho)
            · refine .inl (.inr ?_)
              omega
            · exact .inr ⟨hi, ho, hmem⟩
        · refine ⟨mid, hmid, hloading, hloaded, fun o => ?_⟩
          rw [hcontains, contains_cons]
          refine or_congr_right (and_congr_right fun _ => and_congr_right fun ho => ?_)
          refine ⟨.inr, fun hmem => hmem.resolve_left fun heq => hne ?_⟩
          dsimp only at heq
          rw [heq, Nat.mul_comm, Nat.mul_add_div hpos, Nat.div_eq_of_lt ho, Nat.add_zero]
    · refine ⟨s, by rw [applyWhile]; exact if_neg hindex, h, rfl, rfl,
        fun i slice hslice => ⟨slice, hslice, rfl, rfl, fun o => ?_⟩⟩
      refine ⟨.inl, fun hor => hor.resolve_right ?_⟩
      rintro ⟨hi, ho, hmem⟩
      have hle : offset ≤ i * kInSlice + o := by
        obtain heq | hmem := contains_cons.mp hmem
        · exact heq.le
        · obtain ⟨other, hother, heq⟩ := contains_iff.mp hmem
          exact heq ▸ (hsorted other hother).le
      have hdiv := Nat.div_le_div_right (c := kInSlice) hle
      rw [Nat.mul_comm, Nat.mul_add_div hpos, Nat.div_eq_of_lt ho, Nat.add_zero] at hdiv
      omega

end Slices

end Bettergram.Media.Streaming
